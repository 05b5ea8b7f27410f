import Mathlib
import BilingualC.Checker.Declaration
import BilingualC.Proofs.Reading.Clauses

/-!
# Declarations above what waits

Each rule for declarations with the items that it takes. Types that are made and names that are
declared become facts about the tables. A declaration that is refused leaves a broken node, which
says that an error was reported.
-/

namespace BilingualC

open Guarded Rose Grammar Pending Checker

variable {ok : Fault → Prop}

/-- The broken node that stands for a declaration that was refused. -/
def Pending.refused (id : Int) : List Pending := if id = 0 then [.node .broken] else []

namespace Session

/-- Zero or the number of a declaration. -/
def HasEntry (id : Int) (s : Session) : Prop := id = 0 ∨ (0 < id ∧ id < s.identifiers.size)

/-- The types of parameters are known, and so are the spellings of those with a name. -/
def Receives (ok : Fault → Prop) (parameters : List Checker.Parameter) (s : Session) : Prop :=
  ∀ p ∈ parameters, s.types.Named p.type ∧
    (p.spelling = 0 ∨ ok .badIndex ∨ s.spellings.has p.spelling = true)

theorem lasting_receives (parameters : List Checker.Parameter) : Lasting (Receives ok parameters) :=
  fun _ _ later tiled known p mem => ⟨(known p mem).1.continue later.grows.types tiled,
    (known p mem).2.imp_right fun stored => stored.imp_right later.has⟩

theorem lasting_hasEntry (id : Int) : Lasting (HasEntry id) :=
  fun _ _ later _ known => known.imp_right fun ⟨low, high⟩ =>
    ⟨low, by have := later.grows.more; omega⟩

end Session

/-- The types of fields are known. If something was left behind, one of them is an array. -/
structure FieldsNamed (fields : List Checker.WrittenField) (left : Prop) (s : Session) : Prop where
  named : ∀ f ∈ fields, s.types.Named f.type
  array : left → ∃ f ∈ fields, s.types.isArray f.type = true

namespace TypeTable

/-- The innermost elements of a type are found. -/
theorem innermost_ok {t : TypeTable} {id : Int} (named : t.Named id) (depth : Nat)
    (deep : id < depth) : ∃ e, Checker.innermost t (depth + 1) id = .ok e := by
  induction depth generalizing id with
  | zero =>
    have scalar : t.isArray id = false := by rw [isArray, form_of_scalar (by omega)]; rfl
    exact ⟨id, by rw [Checker.innermost, scalar]; rfl⟩
  | succ depth ih =>
    rw [Checker.innermost]
    split
    next isArray =>
      obtain ⟨e, found, element, lower⟩ := named.element
      obtain ⟨inner, result⟩ := ih element (by
        by_cases pos : 0 < id
        · have := lower pos
          omega
        · rw [TypeTable.isArray, form_of_scalar (by omega)] at isArray
          cases isArray)
      exact ⟨inner, by rw [found]; exact result⟩
    next => exact ⟨id, rfl⟩

end TypeTable

namespace At

variable {σ : Course} {low : Nat} {items : List Pending} {r : Reader} {c : Checker}
    {start loc : Location} {type : TypeId} {spelling : Int}

/-! ## Types -/

/-- A type that is made becomes known. -/
theorem gain {record : TypeRecord} {new : TypeTable × TypeId}
    (held : At ok σ low items r c) (gains : c.session.types.Gains record new)
    (fits : Loose ok ∨ (record.count : Int) ≤ largestBlock) :
    At ok σ low (.known (fun s => s.types.Named new.2) :: items) r
    (c.withSession { c.session with types := new.1 }) :=
  (held.advances (held.fine.regular.advances_types gains fits) (.congr rfl)).know
    (Session.lasting_named new.2) gains.holds.named

/-- The type that a spelling names. -/
theorem namedType (held : At ok σ low items r c) (spelling : Int) :
    Checker.Ends ok (Checker.namedType? spelling) c fun out c' => c' = c ∧
    ∀ type ∈ out, c.session.types.Named type := by
  refine .step (lookup_run spelling c) (.pure ⟨rfl, fun type found => ?_⟩)
  split at found
  · cases found
  · cases found
    exact held.fine.regular.named _

/-! ## Variables -/

theorem reportDeclaration (held : At ok σ low items r c)
    (near : Loose ok ∨ loc.Near) (e : DeclarationError) (spelling : Int) :
    Checker.Ends ok (Checker.reportDeclaration e spelling loc) c fun _ c' =>
    (∃ j, c' = c.withJournal j) ∧ At ok σ low items r c' ∧ c'.errors ≠ 0 := by
  cases e with
  | mainRedefined => exact held.report near _
  | redeclared => exact .step (currentSession_run c) (held.report near _)

/-- After an error a declaration counts as refused. -/
theorem refused (held : At ok σ low items r c) (error : c.errors ≠ 0) (id : Int) :
    At ok σ low (Pending.refused id ++ items) r c := by
  unfold Pending.refused
  split
  · exact held.mark error
  · exact held

theorem declareVariable (held : At ok σ low items r c) (named : c.session.types.Named type)
    (near : Loose ok ∨ loc.Near) (known : ok .badIndex ∨ c.session.spellings.has spelling = true) :
    Checker.Ends ok (Checker.declareVariable type spelling loc) c fun id c' =>
    At ok σ low (Pending.refused id ++ items) r c' := by
  obtain ⟨e, found⟩ := TypeTable.innermost_ok named c.session.types.cells.size named.lt_size
  refine .step (types_run c) (.step (lift_run found) ?_)
  split
  next => exact (held.report near _).bind fun _ _ ⟨_, held, error⟩ => .pure (held.refused error 0)
  next =>
    refine (declare .variable held named nofun nofun known).bind ?_
    rintro answer _ ⟨held, ⟨s, rfl⟩, new⟩
    cases answer with
    | ok id =>
      obtain ⟨pos, -⟩ := new id rfl
      refine .pure ?_
      rw [Pending.refused, if_neg (by omega)]
      exact held
    | error e =>
      exact (held.reportDeclaration near e spelling).bind fun _ _ ⟨_, held, error⟩ =>
        .pure (held.refused error 0)

/-- The bounds are checked one after the other. -/
theorem checkBounds {bounds : List Handle} (held : At ok σ low items r c)
    (values : ∀ n ∈ bounds, Pending.value n ∈ items) :
    Checker.Ends ok (Checker.checkBounds bounds) c fun out c' => At ok σ low items r c' ∧
    (out.1 = false → c'.errors ≠ 0) := by
  induction bounds generalizing items c with
  | nil => exact .pure ⟨held, nofun⟩
  | cons n rest ih =>
    obtain ⟨first, others⟩ := List.forall_mem_cons.mp values
    have mem : n ∈ Pending.handles items :=
      List.mem_reverse.mpr (List.mem_filterMap.mpr ⟨_, first, rfl⟩)
    -- The bounds after this one are checked whatever is wrong with it.
    have later {broken wrong left : Bool} {c : Checker} (held : At ok σ low items r c)
        (error : (!broken && !wrong) = false → c.errors ≠ 0) : Checker.Ends ok
        (Checker.checkBounds rest >>= fun out => pure (out.1 && !broken && !wrong, out.2 || left))
        c fun out c' => At ok σ low items r c' ∧ (out.1 = false → c'.errors ≠ 0) := by
      cases good : !broken && !wrong with
      | true =>
        refine (ih held others).bind fun out c' known => .pure ⟨known.1, fun bad => known.2 ?_⟩
        simpa [Bool.and_assoc, good] using bad
      | false =>
        refine (ih (held.mark (error good)) fun n mem =>
          List.mem_cons_of_mem _ (others n mem)).bind fun out c' known => ?_
        exact .pure ⟨known.1.marked.1, fun _ => known.1.marked.2⟩
    obtain ⟨type, typed⟩ : ∃ type, typeOf n c = .ok (type, c) := by
      cases broken : c.session.tree.isBroken n with
      | true =>
        exact ⟨0, lift_run (by rw [Arena.exprType, Arena.arg, Arena.argc, if_pos broken]; rfl)⟩
      | false =>
        obtain ⟨x, rfl, has, -⟩ := held.operand first broken
        exact ⟨_, typeOf_run has⟩
    refine .step (isBroken_run n c) (.step (a := c.session.tree.kind n) rfl (.step typed ?_))
    dsimp only
    split
    next wrong =>
      obtain ⟨x, rfl, has, operand⟩ := held.operand first (by
        simp only [Bool.and_eq_true, Bool.not_eq_eq_eq_not, Bool.not_true] at wrong
        exact wrong.1.1)
      refine .step (locationOf_run has) ((held.report operand.node.near _).bind ?_)
      rintro _ c ⟨-, held, error⟩
      exact later held fun _ => error
    next right =>
      refine later held fun bad => ?_
      simp only [Bool.not_eq_true] at right
      rw [right] at bad
      exact held.errors_of_broken mem (by simpa using bad)

/-- An initializer is converted to the type of the variable; if it is not right there is none. -/
theorem checkInitializer {init : Handle} (held : At ok σ low (.value init :: items) r c)
    (named : c.session.types.Named type) :
    Checker.Ends ok (Checker.checkInitializer type init) c fun out c' =>
    At ok σ low (.value (out.getD .broken) :: items) r c' := by
  refine .step (isBroken_run init c) ?_
  split
  next broken =>
    exact .pure (giveUp [] [_] held (held.errors_of_broken (by simp [Pending.handles_tree]) broken))
  next live =>
    obtain ⟨x, rfl, has, operand⟩ := held.operand List.mem_cons_self (by simpa using live)
    refine .step (kindOf_run has) (.step (types_run c) ?_)
    split
    next =>
      refine .step (locationOf_run has)
        ((held.report operand.node.near _).bind fun _ c' ⟨_, held, error⟩ => .pure ?_)
      exact giveUp [] [_] held error
    next =>
      refine (convert held named (by simpa using live)).bind ?_
      rintro ⟨n, problem⟩ c' (⟨rfl, held⟩ | ⟨some, loc, located, reports⟩)
      · exact .pure held
      · obtain ⟨d, rfl⟩ := Option.ne_none_iff_exists'.mp some
        exact .step located ((reports d).bind fun _ c' ⟨held, error⟩ => .pure held)

/-- The rest of a declaration after its bounds: whatever was wrong with them was reported. -/
theorem finishVariable {id : Int} {bounds : List Handle} {init : Handle} {hasInit bad : Bool} (held
      : At ok σ low (written true hasInit init ++ (each true bounds ++ .token start :: items)) r c)
    (absent : hasInit = false → init = .broken) (error : bad = true → c.errors ≠ 0) :
    Checker.Ends ok (do
        let type := ((← currentSession).identifier id).type
        let init ← if hasInit then Checker.checkInitializer type init else pure (some init)
        match init with
        | none => return .broken
        | some init =>
          if bad then return .broken
          Checker.build .variable (Location.span start r.previous.loc) [id, bounds.length,
            flagWord hasInit] (bounds ++ [init]))
      c fun n c' => At ok σ low (.node n :: items) r c' := by
  refine .step (currentSession_run c) ?_
  cases bad with
  | true =>
    have held : At ok σ low (written true hasInit init ++ .node .broken :: items) r c :=
      giveUp _ (each true bounds ++ [Pending.token start]) (by simpa using held) (error rfl)
    cases hasInit with
    | true =>
      refine (checkInitializer held (held.fine.regular.named id)).bind fun out c' held => ?_
      have given : At ok σ low (.node .broken :: items) r c' :=
        abandon [_] held ((held.isBroken (n := .broken) (by simp [Pending.handles_tree])).2 rfl)
      cases out <;> exact .pure given
    | false => exact .pure held
  | false =>
    cases hasInit with
    | true =>
      refine (checkInitializer held (held.fine.regular.named id)).bind fun out c' held => ?_
      cases out with
      | none =>
        have error := (held.isBroken (n := .broken) (by simp [Pending.handles_tree])).2 rfl
        exact .pure
          (giveUp [] (_ :: (each true bounds ++ [Pending.token start])) (by simpa using held) error)
      | some init =>
        refine compound .variable (bounds ++ [init])
          (.value init :: each true bounds) held rfl rfl _ ?_
        rw [handles_tree, Pending.handles_each]
    | false =>
      refine compound .variable (bounds ++ [init]) (each true bounds) held rfl rfl _ ?_
      rw [absent rfl, Pending.handles_each, List.filter_append]
      simp

/-- The declaration of a variable takes its bounds and its initializer. -/
theorem variableDeclaration {id : Int} {bounds : List Handle} {init : Handle} {hasInit : Bool}
    (held : At ok σ low (written true hasInit init ++
      (each true bounds ++ (Pending.refused id ++ .token start :: items))) r c)
    (absent : hasInit = false → init = .broken) (near : Loose ok ∨ start.Near) :
    Checker.Ends ok (Checker.variableDeclaration id bounds init hasInit
      (Location.span start r.previous.loc)) c fun n c' =>
      At ok σ low (.node n :: items) r c' := by
  unfold Checker.variableDeclaration
  by_cases zero : id = 0
  · subst zero
    have held : At ok σ low ((written true hasInit init ++
      (each true bounds ++ [Pending.node .broken, .token start])) ++ items) r c := by
      simpa [Pending.refused] using held
    have error := (held.isBroken (n := .broken)
      (by simp [Pending.handles, handle?, List.filterMap_append])).2 rfl
    exact .pure (giveUp [] _ held error)
  have held :
    At ok σ low (written true hasInit init ++ (each true bounds ++ .token start :: items)) r c := by
    simpa [Pending.refused, zero] using held
  simp only [beq_iff_eq, zero, if_false]
  refine (checkBounds held fun n mem => by simp [each, mem]).bind ?_
  rintro ⟨right, isOpen⟩ c ⟨held, wrong⟩
  cases isOpen && !hasInit with
  | true =>
    dsimp only
    rw [Bool.or_true, if_pos rfl]
    refine (held.report (held.near_span near) _).bind ?_
    rintro _ c' ⟨-, held, error⟩
    exact finishVariable held absent fun _ => error
  | false =>
    dsimp only
    rw [Bool.or_false, if_neg Bool.false_ne_true]
    refine finishVariable held absent fun bad => wrong ?_
    simpa using bad

/-! ## Type names -/

theorem typeDefinition (held : At ok σ low (.token loc :: items) r c)
    (named : c.session.types.Named type) (near : Loose ok ∨ loc.Near)
    (known : ok .badIndex ∨ c.session.spellings.has spelling = true) :
    Checker.Ends ok (Checker.typeDefinition type spelling loc) c fun n c' =>
    At ok σ low (.node n :: items) r c' := by
  refine (declare .typeName held named nofun nofun known).bind ?_
  rintro answer c' ⟨held, -, -⟩
  cases answer with
  | ok id =>
    refine build [.token loc] held rfl rfl [id] rfl loc fun _ =>
      covers_of_ends fun xs ls stocks => ?_
    simp only [Stocks.token_iff, Stocks.nil_iff] at stocks
    obtain ⟨_, rfl, rfl, rfl⟩ := stocks
    exact ⟨loc, loc, rfl, rfl, rfl⟩
  | error e =>
    exact (held.reportDeclaration near e spelling).bind fun _ _ ⟨_, held, error⟩ =>
      .pure (giveUp [] [_] held error)

/-! ## Structures -/

theorem intern (held : At ok σ low items r c) (text : String) :
    At ok σ low items r (c.withSession (c.session.intern text).1) :=
  held.advances (held.fine.regular.advances_intern text) (.congr rfl)

theorem tagSpelling (held : At ok σ low items r c) (tag : Int) :
    Checker.Ends ok (Checker.tagSpelling tag) c fun spelling c' => At ok σ low items r c' ∧
      (ok .badIndex ∨ c'.session.spellings.has spelling = true) := by
  refine .step (currentSession_run c) (.step (setSession_run _ c)
    (.pure ⟨held.intern _, held.fine.linked.imp_right fun linked => ?_⟩))
  exact linked.has_intern _

/-- A field with which nothing is wrong is no array. -/
theorem fieldProblem_run (seen : List Int) (f : WrittenField)
    (c : Checker) : ∃ problem, fieldProblem seen f c = .ok (problem, c) ∧
    (problem = none → c.session.types.isArray f.type = false) := by
  unfold fieldProblem
  rw [bind_run (types_run c)]
  split
  next => exact ⟨_, rfl, nofun⟩
  next array =>
    have array : c.session.types.isArray f.type = false := by simpa using array
    split
    next => exact ⟨_, rfl, nofun⟩
    next =>
      split
      next => exact ⟨_, rfl, nofun⟩
      next => exact ⟨none, rfl, fun _ => array⟩

/-- The problems of some fields are reported. Fields that are right are no arrays. -/
theorem checkFields {seen : List Int} {fields : List WrittenField} (held : At ok σ low items r c)
    (near : ∀ f ∈ fields, Loose ok ∨ f.loc.Near) :
    Checker.Ends ok (Checker.checkFields seen fields) c fun right c' =>
    (∃ j, c' = c.withJournal j) ∧ At ok σ low items r c' ∧ (if right = true
      then ∀ f ∈ fields, c.session.types.isArray f.type = false else c'.errors ≠ 0) := by
  induction fields generalizing seen c items with
  | nil => exact .pure ⟨⟨c.session.journal, rfl⟩, held, nofun⟩
  | cons f rest ih =>
    obtain ⟨first, others⟩ := List.forall_mem_cons.mp near
    obtain ⟨problem, asks, array⟩ := fieldProblem_run seen f c
    refine .step asks ?_
    cases problem with
    | none =>
      refine (ih held others).bind fun right c' ⟨same, held, all⟩ => .pure ⟨same, held, ?_⟩
      cases right with
      | true => exact List.forall_mem_cons.mpr ⟨array rfl, all⟩
      | false => exact all
    | some d =>
      refine (held.report first d).bind fun _ c₁ ⟨⟨j, same⟩, held, error⟩ => ?_
      subst same
      refine (ih (held.mark error) others).bind fun right c' ⟨⟨k, same⟩, held, _⟩ =>
        .pure ⟨⟨k, same⟩, held.marked.1, ?_⟩
      simpa using held.marked.2

/-- A structure is declared. Expressions that the bounds of its fields left behind stand for an
array among the fields. -/
theorem declareStructure {fields : List WrittenField} {strays : List Handle} (tag : Int) (held :
      At ok σ low (.known (FieldsNamed fields (strays ≠ [])) :: (each true strays ++ items)) r c)
    (nears : ∀ f ∈ fields, Loose ok ∨ f.loc.Near)
    (short : Loose ok ∨ (fields.length : Int) ≤ largestBlock) (near : Loose ok ∨ loc.Near) :
    Checker.Ends ok (Checker.declareStructure tag fields loc) c fun type c' =>
      At ok σ low (.known (fun s => s.types.Named type) :: items) r c' := by
  obtain ⟨named, array⟩ := held.fact List.mem_cons_self
  refine (checkFields held nears).bind ?_
  rintro right _ ⟨⟨j, rfl⟩, held, all⟩
  cases right with
  | false =>
    have given : At ok σ low items r (c.withJournal j) := abandon (_ :: each true strays) held all
    exact .pure (given.know (Session.lasting_named _) held.fine.regular.types.undefined)
  | true =>
    obtain rfl : strays = [] := by
      by_contra some
      obtain ⟨f, mem, isArray⟩ := array some
      rw [all f mem] at isArray
      cases isArray
    have fieldsNamed : ∀ f ∈ fields.map fun f => (⟨f.type, f.name⟩ : Field),
      c.session.types.Named f.type := by
      intro f mem
      obtain ⟨g, inside, rfl⟩ := List.mem_map.mp mem
      exact named g inside
    obtain ⟨size, new, made, gains⟩ := TypeTable.gains_struct held.fine.regular.types fieldsNamed
    have structured : (c.withJournal j).session.structType (fields.map fun f => ⟨f.type, f.name⟩) =
        .ok ({ (c.withJournal j).session with types := new.1 }, new.2) := by
      rw [Session.structType, made]
      rfl
    have held := (held.pop rfl).gain gains (short.imp_right fun short =>
      by simpa [TypeRecord.count] using short)
    refine .step (currentSession_run _)
      (.step (lift_run structured) (.step (setSession_run _ _) ?_))
    split
    next =>
      refine (held.tagSpelling tag).bind ?_
      rintro spelling c' ⟨held, stored⟩
      refine (declare .typeName held (held.fact List.mem_cons_self) (by simp)
        (by simp) stored).bind ?_
      rintro answer c' ⟨held, -, -⟩
      cases answer with
      | ok id => exact .pure held
      | error e =>
        refine (held.reportDeclaration near e tag).bind ?_
        rintro _ _ ⟨-, held, -⟩
        exact .pure held
    next => exact .pure held

/-- The structure of a tag. -/
theorem structureOf (held : At ok σ low items r c) (tag : Int) (near : Loose ok ∨ loc.Near) :
    Checker.Ends ok (Checker.structureOf tag loc) c fun type c' =>
    At ok σ low (.known (fun s => s.types.Named type) :: items) r c' := by
  refine (held.tagSpelling tag).bind fun spelling c ⟨held, _⟩ => (held.namedType spelling).bind ?_
  rintro out c' ⟨rfl, named⟩
  cases out with
  | some type => exact .pure (held.know (Session.lasting_named type) (named type rfl))
  | none =>
    refine .step (currentSession_run _) ((held.report near _).bind fun _ _ ⟨_, held, _⟩ => .pure ?_)
    exact held.know (Session.lasting_named _) held.fine.regular.types.undefined

theorem declaration {parts : List Handle}
    (held : At ok σ low (each false parts ++ .token start :: items) r c) :
    Checker.Ends ok (Checker.declaration parts (Location.span start r.previous.loc)) c fun n c' =>
    At ok σ low (.node n :: items) r c' :=
  compound _ _ (each false parts) held rfl rfl [] (by rw [Pending.handles_each])

/-! ## Functions -/

/-- A function is declared, or an earlier declaration of it is found. -/
theorem declareFunction (held : At ok σ low items r c) (named : c.session.types.Named type)
    (near : Loose ok ∨ loc.Near) (stored : ok .badIndex ∨ c.session.spellings.has spelling = true) :
    Checker.Ends ok (Checker.declareFunction spelling type loc) c fun id c' =>
      At ok σ low (.known (Session.HasEntry id) :: (Pending.refused id ++ items)) r c' := by
  have refuses {c : Checker} (held : At ok σ low items r c) (error : c.errors ≠ 0) :
      At ok σ low (.known (Session.HasEntry 0) :: (Pending.refused 0 ++ items)) r c :=
    (held.refused error 0).know (Session.lasting_hasEntry 0) (.inl rfl)
  have gives {id : Int} {c : Checker} (held : At ok σ low items r c)
      (pos : 0 < id) (high : id < c.session.identifiers.size) :
      At ok σ low (.known (Session.HasEntry id) :: (Pending.refused id ++ items)) r c := by
    rw [Pending.refused, if_neg (by omega)]
    exact held.know (Session.lasting_hasEntry id) (.inr ⟨pos, high⟩)
  refine .step (currentSession_run c) (.step (lookup_run spelling c) ?_)
  dsimp only
  split
  next earlier =>
    obtain ⟨low, high, -⟩ := held.fine.regular.lookup spelling
    have some : c.session.lookup spelling ≠ 0 := by
      simp only [Bool.and_eq_true, bne_iff_ne] at earlier
      exact earlier.1.1
    refine .lift (TypeTable.equal_ends held.fine.short (held.fine.regular.named _) named)
      fun same _ => ?_
    split
    next => exact .pure (gives held (by omega) high)
    next => exact (held.report near _).bind fun _ _ ⟨_, held, error⟩ => .pure (refuses held error)
  next =>
    refine (declare .function held named nofun nofun stored).bind ?_
    rintro answer c' ⟨held, -, new⟩
    cases answer with
    | error e =>
      exact (held.reportDeclaration near e spelling).bind fun _ _ ⟨_, held, error⟩ =>
        .pure (refuses held error)
    | ok id =>
      obtain ⟨pos, high⟩ := new id rfl
      have placed :
        At ok σ low items r { c' with functionPlaces := (id, loc) :: c'.functionPlaces } := by
        refine held.step ⟨held.fine.regular, held.fine.string, held.fine.result, held.fine.linked,
          ?_⟩ rfl (.refl _) rfl (le_refl _) fun l => l
        exact (or_and held.fine.tight near).imp_right fun both => ⟨both.1.short, both.1.roomy,
          List.forall_mem_cons.mpr ⟨both.2, both.1.places⟩, both.1.mentions⟩
      exact .step (a := ()) rfl (.pure (gives placed pos high))

/-- The parameters of a function are declared. -/
theorem declareParameters {all parameters : List Parameter}
    (held : At ok σ low (.known (Session.Receives ok all) :: items) r c)
    (inside : ∀ p ∈ parameters, p ∈ all) (near : ∀ p ∈ parameters, Loose ok ∨ p.loc.Near) :
    Checker.Ends ok (Checker.declareParameters parameters) c fun _ c' =>
    At ok σ low (.known (Session.Receives ok all) :: items) r c' := by
  induction parameters generalizing c with
  | nil => exact .pure held
  | cons p rest ih =>
    obtain ⟨first, others⟩ := List.forall_mem_cons.mp inside
    obtain ⟨firstNear, otherNear⟩ := List.forall_mem_cons.mp near
    obtain ⟨named, stored⟩ := held.fact List.mem_cons_self p first
    unfold Checker.declareParameters
    split
    next => exact (held.report firstNear _).bind fun _ c ⟨_, held, _⟩ => ih held others otherNear
    next some =>
      have some : p.spelling ≠ 0 := by simpa using some
      refine (declareVariable held named firstNear (stored.resolve_left some)).bind fun id c held =>
        ?_
      refine .step (a := ()) rfl (ih ?_ others otherNear)
      unfold Pending.refused at held
      split at held
      · exact held.marked.1
      · exact held

/-- The scope of a function is opened and its parameters are declared. -/
theorem openFunction {parameters : List Parameter} (id : Int)
    (type : TypeId) (named : c.session.types.Named type)
    (held : At ok σ low (.known (Session.Receives ok parameters) :: items) r c)
    (near : ∀ p ∈ parameters, Loose ok ∨ p.loc.Near) : Checker.Ends ok (do
        let (s, scope) := (← currentSession).enterFunction
        setSession s
        let resultType ← s.types.result type
        modify fun c => { c with function := id, resultType, labels := some #[] }
        Checker.declareParameters parameters
        return scope)
      c fun _ c' => At ok σ low items r c' := by
  obtain ⟨result, read, resultNamed⟩ := named.result
  refine .step (currentSession_run c)
    (.step (setSession_run _ c) (.step (lift_run read) (.step (a := ()) rfl ?_)))
  have entered := held.advances held.fine.regular.advances_enterFunction (.congr rfl)
  have begun : At ok σ low (.known (Session.Receives ok parameters) :: items) r
      { c.withSession c.session.enterFunction.1 with
        function := id
        resultType := result
        labels := some #[] } := by
    refine entered.step ⟨entered.fine.regular, entered.fine.string, resultNamed,
      entered.fine.linked, ?_⟩ rfl (.refl _) rfl (le_refl _) fun l => l
    exact entered.fine.tight.imp_right fun tight =>
      ⟨tight.short, tight.roomy, tight.places, by simp [labelList]⟩
  exact (declareParameters begun (fun _ mem => mem) near).bind fun _ c held => .pure (held.pop rfl)

/-- A second definition is reported before the scope is opened. -/
theorem defineFunction {parameters : List Parameter} (id : Int)
    (held : At ok σ low (.known (Session.Receives ok parameters) :: items) r c)
    (near : ∀ p ∈ parameters, Loose ok ∨ p.loc.Near) (nearLoc : Loose ok ∨ loc.Near) :
    Checker.Ends ok (do
        let entry := (← currentSession).identifier id
        if id != 0 && entry.defined then
          Checker.report loc (.named .redeclared ((← currentSession).identifierText id))
        let (s, scope) := (← currentSession).enterFunction
        setSession s
        let resultType ← s.types.result entry.type
        modify fun c => { c with function := id, resultType, labels := some #[] }
        Checker.declareParameters parameters
        return scope)
      c fun _ c' => At ok σ low items r c' := by
  refine .step (currentSession_run c) ?_
  dsimp only
  split
  next =>
    refine .step (currentSession_run c) ((held.report nearLoc _).bind ?_)
    rintro _ _ ⟨⟨j, rfl⟩, held, -⟩
    exact openFunction id _ (held.fine.regular.named id) held near
  next => exact openFunction id _ (held.fine.regular.named id) held near

/-- The body of a function begins. -/
theorem beginFunction {parameters : List Parameter} (id : Int)
    (held : At ok σ low (.known (Session.Receives ok parameters) :: items) r c)
    (near : ∀ p ∈ parameters, Loose ok ∨ p.loc.Near) (nearLoc : Loose ok ∨ loc.Near) :
    Checker.Ends ok (Checker.beginFunction id parameters loc) c fun _ c' =>
    At ok σ low items r c' := by
  refine .step (a := c) rfl ?_
  split
  next =>
    refine (held.report nearLoc _).bind ?_
    rintro _ _ ⟨-, held, -⟩
    exact defineFunction id held near nearLoc
  next => exact defineFunction id held near nearLoc

theorem reportLabels {labels : List Label} (held : At ok σ low items r c)
    (near : Loose ok ∨ ∀ l ∈ labels, l.mention.Near) :
    Checker.Ends ok (Checker.reportLabels labels) c fun _ c' => At ok σ low items r c' := by
  induction labels generalizing c with
  | nil => exact .pure held
  | cons l rest ih =>
    have others := near.imp_right fun near => (List.forall_mem_cons.mp near).2
    unfold Checker.reportLabels
    split
    next =>
      exact (held.report (near.imp_right fun near => near l List.mem_cons_self) _).bind
        fun _ c ⟨_, held, _⟩ => ih held others
    next => exact ih held others

/-- The body of a function ends: it becomes a part of the definition, unless this was refused. -/
theorem functionDefinition {id : Int} {body : Handle} (scope : Scope)
    (held : At ok σ low (.node body :: .known (Session.HasEntry id) :: .token start :: items) r c) :
    Checker.Ends ok (Checker.functionDefinition id scope body (Location.span start r.previous.loc))
    c fun _ c' =>
      ∃ n, At ok σ low (.node n :: items) r c' := by
  refine .step (a := c) rfl ((held.reportLabels (held.fine.tight.imp_right fun tight =>
    tight.mentions)).bind fun _ c held => ?_)
  refine .step (currentSession_run c)
    (.lift (held.fine.regular.exitFunction_ends held.fine.linked scope) ?_)
  rintro ⟨s, frame⟩ ⟨advances, same, -⟩
  refine .step (setSession_run s c) (.step (a := ()) rfl ?_)
  have left := held.advances advances (.congr same)
  have outside : At ok σ low (.node body :: .known (Session.HasEntry id) :: .token start :: items) r
      { c.withSession s with function := 0, labels := none } :=
    left.step ⟨left.fine.regular, left.fine.string, left.fine.result, left.fine.linked,
      left.fine.tight.imp_right fun tight =>
      ⟨tight.short, tight.roomy, tight.places, by simp [labelList]⟩⟩ rfl (.refl _) rfl
        (le_refl _) fun l => l
  refine .step (isBroken_run body _) ?_
  split
  next => exact .pure ⟨body, forget [_] (forget [_] outside rfl) rfl⟩
  next go =>
    have some : id ≠ 0 := fun zero => go (by simp [zero])
    obtain ⟨pos, high⟩ :=
      (outside.fact (by simp : Pending.known (Session.HasEntry id) ∈ _)).resolve_left some
    obtain ⟨u, done, marks, changed⟩ := left.fine.regular.setDefined_ok pos high
    refine .step (lift_run done) (.step (setSession_run u _) ?_)
    have later : s.Later u := Session.Advances.later (marks : Session.Advances ok s u)
    have library : s.Library → u.Library :=
      .later later (by rw [changed, Session.size_changed]; rfl)
    have marked := outside.advances marks library
    exact (compound _ _ [.node body] (forget [_] marked rfl) rfl rfl [id, frame] rfl).mono
      fun n c' held => ⟨n, held⟩

/-! ## Programs -/

theorem reportUndefined {entries : List (Identifier × Nat)} (held : At ok σ low items r c) :
    Checker.Ends ok (Checker.reportUndefined entries) c fun _ c' => At ok σ low items r c' := by
  induction entries generalizing c with
  | nil => exact .pure held
  | cons e rest ih =>
    obtain ⟨entry, id⟩ := e
    unfold Checker.reportUndefined
    split
    next =>
      have near : Loose ok ∨ ((c.functionPlaces.lookup (id : Int)).getD .none).Near := by
        refine held.fine.tight.imp_right fun tight => ?_
        cases found : c.functionPlaces.lookup (id : Int) with
        | none => exact Location.near_none
        | some loc =>
          obtain ⟨before, after, places, -⟩ := List.lookup_eq_some_iff.mp found
          exact tight.places ((id : Int), loc) (by rw [places]; simp)
      exact .step (a := c) rfl
        (.step (currentSession_run c) ((held.report near _).bind fun _ c ⟨_, held, _⟩ => ih held))
    next => exact ih held

theorem unit (held : At ok σ low items r c) (near : Loose ok ∨ loc.Near) :
    Checker.Ends ok (Checker.unit loc) c fun root c' => root = c'.session.tree.root ∧
    At ok σ low items r c' := by
  have rest {c : Checker} (held : At ok σ low items r c) : Checker.Ends ok
      (do
        Checker.reportUndefined ((← currentSession).identifiers.toList.zipIdx.drop 1)
        return (← tree).root)
      c fun root c' => root = c'.session.tree.root ∧ At ok σ low items r c' :=
    .step (currentSession_run c) (held.reportUndefined.bind fun _ c held =>
      .step (tree_run c) (.pure ⟨rfl, held⟩))
  refine .step (currentSession_run c) ?_
  split
  next => exact (held.report near _).bind fun _ c ⟨_, held, _⟩ => rest held
  next => exact rest held

end At

end BilingualC
