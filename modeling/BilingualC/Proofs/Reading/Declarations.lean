import Mathlib
import BilingualC.Proofs.Reading.Entries
import BilingualC.Proofs.Reading.Expressions

/-!
# Reading declarations

A type specifier leaves a fact about the type that it gives, and a declaration leaves its node. The
bounds of the fields of a structure leave expressions behind that belong to no node; they are in the
way only if a field is an array, which is refused.
-/

namespace BilingualC

open Guarded Pending

variable {β : Type} {ok : Fault → Prop}

namespace TypeTable

/-- A type is known. If something was left behind, it is an array. -/
def Bounded (type : TypeId) (left : Prop) (t : TypeTable) : Prop :=
  t.Named type ∧ (left → t.isArray type = true)

end TypeTable

namespace Session

theorem lasting_bounded (type : TypeId) (left : Prop) :
    Lasting fun s => s.types.Bounded type left := by
  refine fun s t later tiled known => ⟨known.1.continue later.grows.types tiled, fun some => ?_⟩
  rw [known.1.isArray_continue later.grows.types]
  exact known.2 some

theorem lasting_fieldsNamed (fields : List Checker.WrittenField) (left : Prop) :
    Lasting (FieldsNamed fields left) := by
  refine fun s t later tiled known =>
    ⟨fun f mem => (known.named f mem).continue later.grows.types tiled, fun some => ?_⟩
  obtain ⟨f, mem, isArray⟩ := known.array some
  exact ⟨f, mem, by rw [(known.named f mem).isArray_continue later.grows.types]; exact isArray⟩

end Session

namespace At

variable {σ : Course} {low : Nat} {items : List Pending} {r : Reader} {c : Checker} {type : TypeId}
    {R : β → Reader → Checker → Prop}

open Grammar

/-! ## Types -/

/-- The type that a token names. -/
theorem reads_typeNamed {f : Option TypeId → Parse β} (held : At ok σ low items r c) (tok : Token)
    (next : ∀ out, (∀ type ∈ out, c.session.types.Named type) →
      startsType c.session tok = (tok.kind.isTypeSpecifier || out.isSome) →
      Reads ok (f out) r c R) : Reads ok (Grammar.typeNamed? tok >>= f) r c R := by
  unfold Grammar.typeNamed?
  split
  next name =>
    have run : Checker.namedType? tok.spelling c = .ok (if c.session.lookup tok.spelling == 0 ||
        (c.session.identifier (c.session.lookup tok.spelling)).kind != .typeName then none
      else some (c.session.identifier (c.session.lookup tok.spelling)).type, c) := rfl
    refine reads_check (.run (Q := fun out c' => c' = c ∧ out = _) run ⟨rfl, rfl⟩) ?_
    rintro _ _ ⟨rfl, rfl⟩
    refine next _ (fun type found => ?_) ?_
    · split at found
      · cases found
      · cases found
        exact held.fine.regular.named _
    · rw [startsType, name]
      split
      next other =>
        simp only [Bool.or_eq_true, beq_iff_eq, bne_iff_ne] at other
        rcases other with none | other <;> simp [*, TokenKind.isTypeSpecifier]
      next both =>
        simp only [Bool.or_eq_true, not_or, beq_iff_eq, bne_iff_ne, not_not] at both
        simp [both]
  next other =>
    refine next none nofun ?_
    simp [startsType, other]

/-- A type that is made of another one. -/
theorem reads_arrayOf {f : TypeId → Parse β}
    (held : At ok σ low (.known (fun s => s.types.Named type) :: items) r c)
    (next : ∀ id c', At ok σ low (.known (fun s => s.types.Bounded id True) :: items) r c' →
      Reads ok (f id) r c' R) : Reads ok (Grammar.arrayOf type >>= f) r c R := by
  have gains := TypeTable.gains_array (held.fact List.mem_cons_self)
  have made := (held.pop rfl).gain gains (.inr (by simp [TypeRecord.count, largestBlock]))
  have bounded : (c.session.types.array type).1.Bounded (c.session.types.array type).2 True :=
    ⟨gains.holds.named, fun _ => gains.holds.isArray⟩
  exact next _ _ ((made.pop rfl).know (Session.lasting_bounded _ _) bounded)

end At

namespace Grammar

theorem functionFollows_star {tok : Token} {rest : List Token} (star : tok.kind = .star) :
    functionFollows (tok :: rest) = functionFollows rest := by
  rw [functionFollows, if_pos (by simp [star])]

/-- Stars after a type. They are passed even where a function is ahead. -/
theorem reads_stars {σ : Course} {low depth : Nat} {items : List Pending} {r : Reader} {c : Checker}
    {type : TypeId} (held : At ok σ low (.known (fun s => s.types.Named type) :: items) r c)
    (ready : MayStart ok σ .stars low depth) : Reads ok (stars depth type) r c fun id r' c' =>
    At ok σ low (.known (fun s => s.types.Named id) :: items) r' c' ∧
    (functionFollows (σ.tokens.toList.drop r.pos) = true →
      functionFollows (σ.tokens.toList.drop r'.pos) = true ∧ r'.current.kind ≠ .star) := by
  induction depth generalizing σ low r c type with
  | zero => exact reads_throw (ready.endless held.inside)
  | succ depth ih =>
    refine reads_body (fun low σ id r' c' =>
      At ok σ low (.known (fun s => s.types.Named id) :: items) r' c' ∧
      (functionFollows (σ.tokens.toList.drop r.pos) = true →
      functionFollows (σ.tokens.toList.drop r'.pos) = true ∧ r'.current.kind ≠ .star)) held
      ready ?inner fun id r' c' after =>
      ⟨(after.1.leave held.course).lower held.reader.low, after.2⟩
    intro r₁ pos current inside allowed
    refine inside.reads_accept (by decide) (fun r₂ star moved _ after => ?_) fun other => ?_
    · have gains := TypeTable.gains_pointer (after.fact (List.mem_cons_of_mem _ List.mem_cons_self))
      have made := (At.forget [] (after.pop rfl) rfl).gain gains
        (.inr (by simp [TypeRecord.count, largestBlock]))
      have rest := ih made (allowed.on (le_refl _) inside.inside .stars)
      refine reads_session (fun s => s.pointerType type) (rest.mono ?_)
      rintro id r' c' ⟨after, ahead⟩
      refine ⟨after.lower (Nat.le_succ _), fun follows => ahead ?_⟩
      obtain ⟨inside, here⟩ := Array.getElem?_eq_some_iff.mp inside.reader.current
      have list : σ.tokens.toList.drop r₁.pos = r₁.current :: σ.tokens.toList.drop r₂.pos := by
        rw [List.drop_eq_getElem_cons (by rw [Array.length_toList]; exact inside), moved,
          Array.getElem_toList]
        exact congrArg (· :: _) here
      rw [← pos, show (σ.enter Rule.stars r₁.pos).tokens = σ.tokens from rfl, list,
        functionFollows_star star] at follows
      exact follows
    · refine reads_pure ⟨inside, fun follows => ⟨pos ▸ follows, other⟩⟩

/-! ## Structures -/

section Fields

variable {σ : Course} {low depth : Nat} {items : List Pending} {r : Reader} {c : Checker}
    {type : TypeId}

/-- What the bounds of a field leave: the type of the field and expressions that belong to no
node. -/
def FieldBounded (ok : Fault → Prop) (items : List Pending) (low : Nat) (σ : Course) (type : TypeId)
    (r : Reader) (c : Checker) : Prop :=
  ∃ strays, At ok σ low
    (.known (fun s => s.types.Bounded type (strays ≠ [])) :: (each true strays ++ items)) r c

theorem reads_fieldBounds {strays : List Handle} (held : At ok σ low
      (.known (fun s => s.types.Bounded type (strays ≠ [])) :: (each true strays ++ items)) r c)
    (ready : MayStart ok σ .fieldBounds low depth) :
    Reads ok (fieldBounds depth type) r c (FieldBounded ok items low σ) := by
  induction depth generalizing σ low r c type strays with
  | zero => exact reads_throw (ready.endless held.inside)
  | succ depth ih =>
    refine reads_body (FieldBounded ok items) held ready ?inner fun id r' c' ⟨strays, after⟩ =>
      ⟨strays, (after.leave held.course).lower held.reader.low⟩
    intro r₁ pos _ inside allowed
    have on (rule : Rule) := allowed.on (le_refl _) inside.inside rule
    refine inside.reads_accept (by decide) (fun r₂ _ _ _ after => ?_) fun _ =>
      reads_pure ⟨strays, inside⟩
    have named := (after.fact (List.mem_cons_of_mem _ List.mem_cons_self)).1
    have after := (At.forget [] (after.pop rfl) rfl : At ok _ _ _ _ _)
    have tail {r : Reader} {c : Checker} (strays : List Handle) (named : c.session.types.Named type)
        (held : At ok (σ.enter .fieldBounds r₁.pos) (r₁.pos + 1) (each true strays ++ items) r c) :
        Reads ok (do
          want .rightBracket "]"
          fieldBounds depth (← arrayOf type))
        r c (FieldBounded ok items r₁.pos (σ.enter .fieldBounds r₁.pos)) := by
      refine (held.know (Session.lasting_named type) named).reads_want (by decide) fun r c held _ =>
        ?_
      refine (held.pop rfl).reads_arrayOf fun id c held => ?_
      have weaker : c.session.types.Bounded id (strays ≠ []) :=
        (held.fact List.mem_cons_self).imp_right fun array _ => array trivial
      refine (ih ((held.pop rfl).know (Session.lasting_bounded id _) weaker) (on _)).mono ?_
      exact fun id r c ⟨strays, held⟩ => ⟨strays, held.lower (Nat.le_succ _)⟩
    refine reads_is (.ite (fun _ => ?_) fun _ => tail strays named after)
    refine Reads.bind ((expressionLeads ok depth).conditionalExpression
      (after.know (Session.lasting_named type) named) (on _)) ?_
    intro n r c held
    have named := held.fact (List.mem_cons_of_mem _ List.mem_cons_self)
    refine tail (strays ++ [n]) named ?_
    simpa [each] using At.forget [_] held rfl

/-- What the members of a structure leave: their fields, not more than tokens were passed, and
expressions that belong to no node. -/
def FieldsLeft (ok : Fault → Prop) (items : List Pending) (low : Nat) (σ : Course)
    (fields : List Checker.WrittenField) (r : Reader) (c : Checker) : Prop :=
  (∀ f ∈ fields, Loose ok ∨ f.loc.Near) ∧ ∃ strays, At ok σ (low + fields.length)
    (.known (FieldsNamed fields (strays ≠ [])) :: (each true strays ++ items)) r c

theorem FieldsLeft.lower {fields : List Checker.WrittenField} {p : Nat}
    (left : FieldsLeft ok items low σ fields r c) (le : p ≤ low) :
    FieldsLeft ok items p σ fields r c := by
  obtain ⟨near, strays, held⟩ := left
  exact ⟨near, strays, held.lower (by omega)⟩

theorem FieldsLeft.leave {rule : Rule} {pos : Nat}
    {fields : List Checker.WrittenField} (good : σ.Good ok) (le : low ≤ pos)
    (left : FieldsLeft ok items pos (σ.enter rule pos) fields r c) :
    FieldsLeft ok items low σ fields { r with trail := σ.trail } c := by
  obtain ⟨near, strays, held⟩ := left
  exact ⟨near, strays, (held.leave good).lower (by omega)⟩

/-- No fields, after an error. -/
theorem fieldsLeft_nil (held : At ok σ low items r c) : FieldsLeft ok items low σ [] r c :=
  ⟨nofun, [], held.know (Session.lasting_fieldsNamed [] _) ⟨nofun, fun some => absurd rfl some⟩⟩

/-- Fields after others. -/
theorem FieldsLeft.after {fields others : List Checker.WrittenField}
    {strays : List Handle} (near : ∀ f ∈ fields, Loose ok ∨ f.loc.Near)
    (later : FieldsLeft ok (.known (FieldsNamed fields (strays ≠ [])) ::
      (each true strays ++ items)) (low + fields.length) σ others r c) :
    FieldsLeft ok items low σ (fields ++ others) r c := by
  obtain ⟨others', strays', held⟩ := later
  have below := held.fact (List.mem_cons_of_mem _ (List.mem_append_right _ List.mem_cons_self))
  have above := held.fact List.mem_cons_self
  refine ⟨List.forall_mem_append.mpr ⟨near, others'⟩, strays ++ strays', ?_⟩
  have plain :
    At ok σ (low + (fields ++ others).length) (each true (strays ++ strays') ++ items) r c := by
    have plain := At.forget _ (held.pop rfl) rfl
    rw [List.length_append, ← add_assoc]
    simpa [each] using plain
  refine plain.know (Session.lasting_fieldsNamed _ _)
    ⟨List.forall_mem_append.mpr ⟨below.named, above.named⟩, fun some => ?_⟩
  by_cases left : strays = []
  · obtain ⟨f, mem, isArray⟩ := above.array (by simpa [left] using some)
    exact ⟨f, List.mem_append_right _ mem, isArray⟩
  · obtain ⟨f, mem, isArray⟩ := below.array left
    exact ⟨f, List.mem_append_left _ mem, isArray⟩

theorem reads_fieldList {base : TypeId}
    (held : At ok σ low (.known (fun s => s.types.Named base) :: items) r c)
    (ready : MayStart ok σ .fieldList low depth) :
    Reads ok (fieldList depth base) r c (FieldsLeft ok items low σ) := by
  induction depth generalizing σ low r c items with
  | zero => exact reads_throw (ready.endless held.inside)
  | succ depth ih =>
    refine reads_body (FieldsLeft ok items) held ready ?inner fun fields r' c' left =>
      left.leave held.course held.reader.low
    intro r₁ pos _ inside allowed
    have on (rule : Rule) := allowed.on (le_refl _) inside.inside rule
    have both := inside.know (Session.lasting_named base) (inside.fact List.mem_cons_self)
    refine Reads.bind (reads_stars both (allowed.down (le_refl _) (by decide))) ?_
    rintro type r₂ c₂ ⟨held, _⟩
    refine reads_current ?_
    have near := held.near
    refine held.reads_expect (by decide) (fun r₃ _ _ held => ?_) fun r₃ c₃ held error =>
      reads_pure ?_
    rotate_left
    · exact fieldsLeft_nil (At.abandon [_, _] held error)
    have named := held.fact (List.mem_cons_of_mem _ List.mem_cons_self)
    have held : At ok _ _ (.known (fun s => s.types.Bounded type (([] : List Handle) ≠ [])) ::
        (each true [] ++ .known (fun s => s.types.Named base) :: items)) r₃ c₂ :=
      (At.forget [] (held.pop rfl) rfl).know (Session.lasting_bounded type _) ⟨named,
        fun some => absurd rfl some⟩
    refine Reads.bind (reads_fieldBounds held (on _)) ?_
    rintro id r₄ c₄ ⟨strays, held⟩
    have baseNamed :=
      held.fact (List.mem_cons_of_mem _ (List.mem_append_right _ List.mem_cons_self))
    have bounded := held.fact List.mem_cons_self
    have single : At ok (σ.enter .fieldList r₁.pos) (r₁.pos + 1)
        (.known (FieldsNamed [⟨r₂.current.spelling, id, r₂.current.loc⟩] (strays ≠ [])) ::
        (each true strays ++ items)) r₄ c₄ := by
      refine (At.forget _ (held.pop rfl) rfl).know (Session.lasting_fieldsNamed _ _) ⟨?_,
        fun some => ?_⟩
      · exact List.forall_mem_singleton.mpr bounded.1
      · exact ⟨_, List.mem_singleton_self _, bounded.2 some⟩
    have nears : ∀ f ∈ [(⟨r₂.current.spelling, id, r₂.current.loc⟩ : Checker.WrittenField)],
      Loose ok ∨ f.loc.Near :=
      List.forall_mem_singleton.mpr near
    refine single.reads_accept (by decide) (fun r₅ _ _ _ held => ?_) fun _ =>
      reads_pure ⟨nears, strays, single⟩
    have again := ((held.pop rfl).lower (Nat.le_succ _)).know (Session.lasting_named base) baseNamed
    exact Reads.bind (ih again (on _)) fun others r c left =>
      reads_pure (FieldsLeft.after nears left)

/-- What a type specifier leaves: a type behind its first token, or nothing where none starts. -/
def Specified (ok : Fault → Prop) (items : List Pending) (start : Reader) (session : Session)
    (low : Nat) (σ : Course) (out : Option TypeId) (r : Reader) (c : Checker) : Prop :=
  match out with
  | some type =>
    At ok σ (low + 1)
      (.known (fun s => s.types.Named type) :: .token start.current.loc :: items) r c
  | none =>
    At ok σ low items r c ∧ (r.pos = start.pos ∧ r.current = start.current ∧
      r.previous = start.previous) ∧ startsType session start.current = false ∧ c.session = session

/-- Where the members of a structure may start. -/
def MembersStart (ok : Fault → Prop) (σ : Course) (low depth : Nat) (r : Reader)
    (c : Checker) : Prop :=
  MayStart ok σ .members low depth ∨ (ok .endless ∧ Allowed ok σ .members low depth ∧
    Start.isStuck ⟨.members, r.pos, r.current, r.previous, r.trail, c.session⟩ = true)

theorem MembersStart.allowed (starts : MembersStart ok σ low depth r c) :
    Allowed ok σ .members low depth :=
  starts.elim (·.toAllowed) (·.2.1)

theorem MembersStart.passes (starts : MembersStart ok σ low depth r c)
    (held : At ok σ low items r c) :
    ok .stopped ∨ r.watch ⟨.members, r.pos, r.current, r.previous, r.trail, c.session⟩ = false := by
  rcases starts with ready | ⟨-, -, stuck⟩
  · exact ready.passes held
  · rw [held.reader.watch]
    exact held.course.stopped.imp_right fun lets => lets _ (.inr stuck)

/-- What the rules of type specifiers leave when they may nest so deep. -/
structure SpecifierReads (ok : Fault → Prop) (depth : Nat) : Prop where
  typeSpecifier : ∀ ⦃σ low items r c⦄, At ok σ low items r c →
    MayStart ok σ .typeSpecifier low depth →
    Reads ok (typeSpecifier depth) r c (Specified ok items r c.session low σ)
  structureSpecifier : ∀ ⦃start⦄, (Loose ok ∨ start.Near) → Rule.structureSpecifier.Leads ok depth
    (structureSpecifier depth start) [] fun type => [.known fun s => s.types.Named type]
  members : ∀ ⦃σ low items r c⦄, At ok σ low items r c → MembersStart ok σ low depth r c →
    Reads ok (members depth) r c (FieldsLeft ok items low σ)

namespace SpecifierReads

variable (reads : SpecifierReads ok depth)

include reads

theorem typeSpecifier_succ ⦃σ low items r c⦄ (held : At ok σ low items r c)
    (ready : MayStart ok σ .typeSpecifier low (depth + 1)) :
    Reads ok (Grammar.typeSpecifier (depth + 1)) r c (Specified ok items r c.session low σ) := by
  refine reads_placed (Specified ok items r c.session) held (ready.passes held)
    (fun r₁ pos current previous inside => ?_) fun out r' c' left => ?_
  rotate_left
  · cases out with
    | some type => exact (At.leave held.course left).lower (Nat.succ_le_succ held.reader.low)
    | none => exact ⟨(left.1.leave held.course).lower held.reader.low, left.2⟩
  have allowed : Allowed ok σ .typeSpecifier r₁.pos (depth + 1) :=
    pos ▸ (ready.raise held.reader.low).toAllowed
  have near := inside.near
  -- A word for a type.
  have word {type : Int} (low : TypeId.void ≤ type) (high : type ≤ TypeId.undefined)
      (more : r₁.current.kind ≠ .endOfInput) : Reads ok (do Grammar.advance; return some type) r₁ c
      (Specified ok items r c.session r₁.pos (σ.enter .typeSpecifier r₁.pos)) := by
    refine inside.reads_advance more fun r₂ _ _ held => reads_pure ?_
    rw [Specified, ← current]
    exact held.know (Session.lasting_named type) (held.fine.scalar low high)
  refine reads_current ?_
  split
  next kind => exact word (by decide) (by decide) (by simp [kind])
  next kind => exact word (by decide) (by decide) (by simp [kind])
  next kind => exact word (by decide) (by decide) (by simp [kind])
  next kind => exact word (by decide) (by decide) (by simp [kind])
  next kind => exact word (by decide) (by decide) (by simp [kind])
  next kind => exact word (by decide) (by decide) (by simp [kind])
  next kind =>
    refine inside.reads_advance (by simp [kind]) fun r₂ _ _ held => ?_
    refine Reads.bind (reads.structureSpecifier near held (allowed.on (le_refl _) inside.inside _))
      fun type r c held => reads_pure ?_
    rw [Specified, ← current]
    exact held
  next =>
    refine inside.reads_typeNamed r₁.current fun out named starts => ?_
    cases out with
    | some type =>
      have more : r₁.current.kind ≠ .endOfInput := by
        intro ends
        simp [startsType, ends, TokenKind.isTypeSpecifier] at starts
      refine inside.reads_advance more fun r₂ _ _ held => reads_pure ?_
      rw [Specified, ← current]
      exact held.know (Session.lasting_named type) (named type rfl)
    | none =>
      refine reads_pure ⟨inside, ⟨pos, current, previous⟩, ?_, rfl⟩
      rw [← current, starts, Option.isSome_none, Bool.or_false]
      unfold TokenKind.isTypeSpecifier
      split <;> first | rfl | simp_all

theorem structureSpecifier_succ ⦃start : Location⦄ (near : Loose ok ∨ start.Near) :
    Rule.structureSpecifier.Leads ok (depth + 1) (Grammar.structureSpecifier (depth + 1) start) []
      fun type => [.known fun s => s.types.Named type] := by
  refine leads_within fun σ items r c held allowed => reads_current ?_
  have tagNear := held.near
  have on (rule : Rule) := allowed.on (le_refl _) held.inside rule
  -- What comes behind the tag.
  have rest {r₁ : Reader} (tag : Int)
      (held : At ok (σ.enter .structureSpecifier r.pos) r.pos items r₁ c) : Reads ok (do
        if !(← accept .leftBrace) then
          if tag != 0 then return ← Checker.structureOf tag r.current.loc
          reportMissing "\x7b"
          return TypeId.undefined
        let fields ← Grammar.members depth
        want .rightBrace "\x7d"
        Checker.declareStructure tag fields (← spanFrom start))
      r₁ c fun type r' c' => At ok (σ.enter .structureSpecifier r.pos) r.pos
        (.known (fun s => s.types.Named type) :: items) r' c' := by
    refine held.reads_accept (by decide) (fun r₂ _ _ _ held => ?_) fun _ =>
      .ite (fun _ => .ite (fun _ => ?_) fun _ => ?_) fun no => absurd rfl no
    · refine Reads.bind (reads.members (held.pop rfl) (.inl (on _))) ?_
      rintro fields r₃ c₃ ⟨nears, strays, held⟩
      have short : Loose ok ∨ (fields.length : Int) ≤ largestBlock := by
        have inside := held.inside
        exact held.course.near.imp_right fun near => by
          have size := near.2
          omega
      refine held.reads_want (by decide) fun r₄ c₄ held _ => reads_spanFrom (reads_lift ?_)
      refine ((held.pop rfl).declareStructure tag nears short (held.near_span near)).mono
        fun type c held => ?_
      exact held.lower (by omega)
    · exact reads_lift (held.structureOf tag tagNear)
    · exact held.reads_reportMissing fun j held _ =>
        reads_pure (held.know (Session.lasting_named _) held.fine.regular.types.undefined)
  refine held.reads_accept (by decide) (fun r₁ _ _ _ held => ?_) fun _ => rest 0 held
  exact rest r.current.spelling ((held.pop rfl).lower (Nat.le_succ _))

/-- Where the members find nothing to read and nothing to skip they start over. -/
theorem members_stuck {σ : Course} {low : Nat} {items : List Pending} {r : Reader} {c : Checker}
    (held : At ok σ low items r c) (allowed : Allowed ok σ .members low (depth + 1))
    (stuck : Start.isStuck ⟨.members, r.pos, r.current, r.previous, r.trail, c.session⟩ = true) :
    Reads ok (Grammar.members depth) r c (FieldsLeft ok items low σ) := by
  rcases held.course.endless with endless | watches
  · exact reads.members held (.inr ⟨endless, ⟨.inl endless, allowed.within⟩, stuck⟩)
  · have stopped : ok .stopped := held.course.stopped.resolve_right fun lets => by
      have passes := lets _ (.inr stuck)
      rw [watches _ stuck] at passes
      cases passes
    cases depth with
    | zero =>
      refine reads_throw (allowed.fuel.resolve_right fun fuel => ?_)
      have inside := held.inside
      omega
    | succ depth => exact reads_watched (by rw [held.reader.watch]; exact watches _ stuck) stopped

theorem members_succ ⦃σ low items r c⦄ (held : At ok σ low items r c)
    (starts : MembersStart ok σ low (depth + 1) r c) :
    Reads ok (Grammar.members (depth + 1)) r c (FieldsLeft ok items low σ) := by
  refine reads_placed (FieldsLeft ok items) held (starts.passes held) (fun r₁ pos _ _ inside => ?_)
    fun fields r' c' left => left.leave held.course held.reader.low
  have allowed : Allowed ok σ .members r₁.pos (depth + 1) :=
    pos ▸ starts.allowed.raise held.reader.low
  have on (rule : Rule) := allowed.on (le_refl _) inside.inside rule
  refine reads_is (reads_is (.ite (fun _ => reads_pure (fieldsLeft_nil inside)) fun more => ?_))
  simp only [Bool.or_eq_true, beq_iff_eq, not_or] at more
  refine Reads.bind (reads.typeSpecifier inside (allowed.down (le_refl _) (by decide)))
    fun out r₂ c₂ specified => ?_
  cases out with
  | none =>
    obtain ⟨held, ⟨pos₂, current, previous⟩, starts, same⟩ := specified
    refine held.reads_reportMissing fun j held error => ?_
    refine held.reads_synchronize (allowed.down (le_refl _) (by decide)) fun r₃ held passed => ?_
    rcases passed rfl (current ▸ more.2) (current ▸ more.1) with ⟨semicolon, rfl⟩ | held
    · refine reads.members_stuck held allowed.again ?_
      have untyped : startsType (c₂.withJournal j).session r₁.current = false := by
        rw [← starts, ← same]
        rfl
      have semicolon : r₂.previous.kind = .semicolon := semicolon
      simp [Start.isStuck, semicolon, untyped, current, more]
    · exact (reads.members held (.inl (on _))).mono fun fields r c left =>
        left.lower (Nat.le_succ _)
  | some base =>
    have held : At ok (σ.enter .members r₁.pos) (r₁.pos + 1)
      (.known (fun s => s.types.Named base) :: items) r₂ c₂ :=
      At.forget [_] specified rfl
    refine Reads.bind (reads_fieldList held (on _)) ?_
    rintro fields r₃ c₃ ⟨nears, strays, held⟩
    refine held.reads_want (by decide) fun r₄ c₄ held _ => ?_
    have ready (rule : Rule) := (on rule).raise (Nat.le_add_right (r₁.pos + 1) fields.length)
    refine (held.pop rfl).reads_synchronize (ready _) fun r₅ held _ => ?_
    refine Reads.bind (reads.members held (.inl (ready _))) fun others r₆ c₆ left => reads_pure ?_
    exact FieldsLeft.after nears (left.lower (by omega))

end SpecifierReads

/-- The rules of type specifiers, however deep they nest. -/
theorem specifierReads (ok : Fault → Prop) (depth : Nat) : SpecifierReads ok depth := by
  induction depth with
  | zero =>
    exact {
      typeSpecifier := fun σ low items r c held ready => reads_throw (ready.endless held.inside)
      structureSpecifier := fun start _ => leads_endless rfl
      members := fun σ low items r c held starts =>
        reads_throw (starts.allowed.endless held.inside) }
  | succ depth reads =>
    exact {
      typeSpecifier := reads.typeSpecifier_succ
      structureSpecifier := reads.structureSpecifier_succ
      members := reads.members_succ }

end Fields

end Grammar

end BilingualC
