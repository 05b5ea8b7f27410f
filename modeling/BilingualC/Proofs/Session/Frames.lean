import Mathlib
import BilingualC.Proofs.Guarded
import BilingualC.Proofs.Session.Scopes
import BilingualC.Proofs.TypeTable

/-!
# Frames of a session

A variable takes the next cells of its frame. Cells of the local frame are given back when a block
is left, and the size of the frame is the highest displacement that was ever in use; cells of the
global frame are never given back.

`Session.Laid` gives a session together with the stack of scopes that a sequence of calls has
opened, and the invariant `Allotted` says how the variables of these scopes lie in their frames: the
local ones are stacked scope on scope (`Stacked`), the global ones stand one behind the other.
`laid_apart` collects what follows: no two variables that live at the same time share a cell, and
every variable lies inside its frame.

Displacements are words. A run in which a frame outgrows them is left out (`Roomy`), and
`laid_outgrown` shows what happens in one.
-/

namespace BilingualC

namespace Session

variable {s t : Session} {spelling id : Int} {kind : IdentKind} {type : TypeId}

/-! ## Cells of variables -/

/-- The number of cells of a variable. -/
def words (s : Session) (id : Int) : Int :=
  match s.types.sizeOf (s.identifier id).type with
  | .ok n => n
  | .error _ => 0

/-- The first cell of a variable in the local frame. -/
def localStart (s : Session) (id : Int) : Int := (s.identifier id).displacement

/-- The first cell of a variable in the global frame, which grows downwards. -/
def globalStart (s : Session) (id : Int) : Int := -(s.identifier id).displacement

/-- The cells of a variable in the local frame. -/
def localCells (s : Session) (id : Int) : Set Int :=
  Set.Ico (s.localStart id) (s.localStart id + s.words id)

/-- The cells of a variable in the global frame. -/
def globalCells (s : Session) (id : Int) : Set Int :=
  Set.Ico (s.globalStart id) (s.globalStart id + s.words id)

def isVariable (s : Session) (id : Int) : Bool := (s.identifier id).kind == .variable

/-- The variables of a scope, last one first. -/
def OpenScope.variables (s : Session) (scope : OpenScope) : List Int :=
  (scope.declared.map Prod.snd).filter s.isVariable

/-- Says whether one of the open scopes is that of a function. -/
def inFunction (scopes : List OpenScope) : Bool := scopes.any (·.isFunction)

/-- The living variables of the local frame: their scope is that of a function or lies inside of
it. -/
def locals (s : Session) : List OpenScope → List Int
  | [] => []
  | scope :: outer =>
    if scope.isFunction then scope.variables s
    else if inFunction outer then scope.variables s ++ locals s outer
    else []

/-- The living variables of the global frame. -/
def globals (s : Session) : List OpenScope → List Int
  | [] => []
  | scope :: outer =>
    if scope.isFunction ||
    inFunction outer then globals s outer else scope.variables s ++ globals s outer

/-- The highest displacement of a frame, which is a word. -/
def lastDisplacement : Int := 9223372036854775807

/-- There is room for a variable of a type: its size is not negative, as the size of a structure
that outgrows the words may be, and its cells end at a displacement that is a word. -/
def Roomy (s : Session) (type : TypeId) : Prop :=
  ∀ n, s.types.sizeOf type = .ok n →
    0 ≤ n ∧ (if s.isLocal then s.displacement else s.globalDisplacement) + n ≤ lastDisplacement

/-- The sessions that well-nested calls reach from a new session, with the stack of open scopes,
innermost first. Functions are not nested, types may be made between the calls, and a variable of a
type is taken in only where `room` allows it. -/
inductive Laid (room : Session → TypeId → Prop) : Session → List OpenScope → Prop
  | start (rootType : Int) (journal : Journal) :
      Laid room (new rootType journal) [⟨false, ⟨0, 0⟩, new rootType journal, []⟩]
  | intern {s : Session} {scopes : List OpenScope} (earlier : Laid room s scopes) (text : String) :
      Laid room (s.intern text).1 scopes
  | types {s : Session} {scopes : List OpenScope}
      {new : TypeTable × TypeId} (earlier : Laid room s scopes)
      (makes : s.types.Makes new) : Laid room { s with types := new.1 } scopes
  | declare {s t : Session} {scope : OpenScope} {outer : List OpenScope}
      {spelling id : Int} {kind : IdentKind} {type : TypeId}
      (earlier : Laid room s (scope :: outer)) (known : s.spellings.has spelling = true)
      (valid : s.types.Valid type) (fits : kind = .variable → room s type)
      (done : s.declare spelling kind type = .ok (.ok (t, id))) :
      Laid room t (scope.add spelling kind id :: outer)
  | enterBlock {s : Session} {scopes : List OpenScope} (earlier : Laid room s scopes) :
      Laid room s.enterBlock.1 (⟨false, s.enterBlock.2, s, []⟩ :: scopes)
  | exitBlock {s t : Session} {scope next : OpenScope} {outer : List OpenScope}
      (earlier : Laid room s (scope :: next :: outer)) (block : scope.isFunction = false)
      (done : s.exitBlock scope.saved = .ok t) : Laid room t (next :: outer)
  | enterFunction {s : Session} {scopes : List OpenScope} (earlier : Laid room s scopes)
      (single : inFunction scopes = false) :
      Laid room s.enterFunction.1 (⟨true, s.enterFunction.2, s, []⟩ :: scopes)
  | exitFunction {s t : Session} {scope next : OpenScope} {outer : List OpenScope} {size : Int}
      (earlier : Laid room s (scope :: next :: outer)) (function : scope.isFunction = true)
      (done : s.exitFunction scope.saved = .ok (t, size)) : Laid room t (next :: outer)

/-- The calls are those that keep the stack of scopes. -/
theorem Laid.reached {room : Session → TypeId → Prop} {scopes : List OpenScope}
    (laid : Laid room s scopes) : ∃ rootType journal, Reached (new rootType journal) s scopes := by
  induction laid with
  | start rootType journal => exact ⟨rootType, journal, .start⟩
  | intern _ text ih =>
    obtain ⟨rootType, journal, reached⟩ := ih
    exact ⟨rootType, journal, reached.intern text⟩
  | types _ _ ih =>
    obtain ⟨rootType, journal, reached⟩ := ih
    exact ⟨rootType, journal, reached.types _⟩
  | declare _ known valid _ done ih =>
    obtain ⟨rootType, journal, reached⟩ := ih
    exact ⟨rootType, journal, reached.declare (fun _ => ⟨known, fun _ => valid.sizeOf⟩) done⟩
  | enterBlock _ ih =>
    obtain ⟨rootType, journal, reached⟩ := ih
    exact ⟨rootType, journal, reached.enterBlock⟩
  | exitBlock _ block done ih =>
    obtain ⟨rootType, journal, reached⟩ := ih
    exact ⟨rootType, journal, reached.exitBlock block done⟩
  | enterFunction _ _ ih =>
    obtain ⟨rootType, journal, reached⟩ := ih
    exact ⟨rootType, journal, reached.enterFunction⟩
  | exitFunction _ function done ih =>
    obtain ⟨rootType, journal, reached⟩ := ih
    exact ⟨rootType, journal, reached.exitFunction function done⟩

/-! ## Taking cells -/

/-- Two sessions whose frames are filled alike. -/
structure SameFrame (s t : Session) : Prop where
  isLocal : t.isLocal = s.isLocal
  displacement : t.displacement = s.displacement
  maxDisplacement : t.maxDisplacement = s.maxDisplacement
  globalDisplacement : t.globalDisplacement = s.globalDisplacement

@[simp] theorem types_allocate (s : Session) (n : Int) : (s.allocate n).1.types = s.types := by
  unfold allocate
  split <;> rfl

@[simp] theorem identifiers_allocate (s : Session) (n : Int) :
    (s.allocate n).1.identifiers = s.identifiers := by
  unfold allocate
  split <;> rfl

theorem place_eq {entry e : Identifier} (done : s.place entry id = .ok (t, e)) :
    (t.types = s.types ∧ t.identifiers = s.identifiers ∧ e.kind = entry.kind ∧
      e.type = entry.type) ∧ (entry.kind ≠ .variable → s.SameFrame t) ∧
    (entry.kind = .variable → ∃ n, s.types.sizeOf entry.type = .ok n ∧
      e.displacement = (s.allocate n).2 ∧ (s.allocate n).1.SameFrame t) := by
  unfold place at done
  split at done
  next isVariable =>
    obtain ⟨n, size, made⟩ := Guarded.bind_eq_ok.mp done
    cases made
    exact ⟨⟨types_allocate s n, identifiers_allocate s n, rfl, rfl⟩,
      fun other => absurd isVariable other, fun _ => ⟨n, size, rfl, rfl, rfl, rfl, rfl⟩⟩
  next function =>
    cases done
    exact ⟨⟨rfl, rfl, rfl, rfl⟩, fun _ => ⟨rfl, rfl, rfl, rfl⟩,
      fun same => by simp [function] at same⟩
  next notVariable _ =>
    cases done
    exact ⟨⟨rfl, rfl, rfl, rfl⟩, fun _ => ⟨rfl, rfl, rfl, rfl⟩, fun same => absurd same notVariable⟩

/-- What a declaration that is taken in does to the frames. -/
theorem declare_eq (done : s.declare spelling kind type = .ok (.ok (t, id))) :
    id = s.identifiers.size ∧ t.types = s.types ∧ ∃ e, t.identifiers = s.identifiers.push e ∧
    e.kind = kind ∧ e.type = type ∧ (kind ≠ .variable → s.SameFrame t) ∧
    (kind = .variable → ∃ n, s.types.sizeOf type = .ok n ∧ e.displacement = (s.allocate n).2 ∧
      (s.allocate n).1.SameFrame t) := by
  by_cases label : kind = .label
  · subst label
    rw [declare_label] at done
    cases done
    exact ⟨rfl, rfl, _, rfl, rfl, rfl, fun _ => ⟨rfl, rfl, rfl, rfl⟩, nofun⟩
  · have visible : (kind == IdentKind.label) = false := by simpa using label
    unfold declare at done
    simp only [visible, Bool.false_eq_true, if_false] at done
    obtain ⟨cell, -, done⟩ := Guarded.bind_eq_ok.mp done
    split at done
    · cases done
    split at done
    · cases done
    obtain ⟨⟨u, e⟩, placed, done⟩ := Guarded.bind_eq_ok.mp done
    obtain ⟨v, shown, done⟩ := Guarded.bind_eq_ok.mp done
    cases done
    obtain ⟨p, -, shown⟩ := Guarded.bind_eq_ok.mp shown
    cases shown
    obtain ⟨⟨types, identifiers, sameKind, sameType⟩, other, taken⟩ := place_eq placed
    refine ⟨rfl, types, e, congrArg (·.push e) identifiers, sameKind, sameType, ?_, ?_⟩
    · intro notVariable
      obtain ⟨isLocal, displacement, maxDisplacement, globalDisplacement⟩ := other notVariable
      exact ⟨isLocal, displacement, maxDisplacement, globalDisplacement⟩
    · intro isVariable
      obtain ⟨n, size, place, isLocal, displacement, maxDisplacement, globalDisplacement⟩ :=
        taken isVariable
      exact ⟨n, size, place, isLocal, displacement, maxDisplacement, globalDisplacement⟩

/-! ## Stacks of cells -/

/-- Variables that lie one below the other, from a top cell down to a lowest one. -/
def Stack (start size : Int → Int) (low : Int) : Int → List Int → Prop
  | top, [] => low ≤ top
  | top, id :: rest => start id + size id ≤ top ∧ 0 ≤ size id ∧ Stack start size low (start id) rest

section Stacks

variable {start size start' size' : Int → Int} {low middle top higher : Int} {ids more : List Int}

theorem Stack.low_le (stack : Stack start size low top ids) : low ≤ top := by
  induction ids generalizing top with
  | nil => exact stack
  | cons id rest ih =>
    obtain ⟨fits, some, below⟩ := stack
    have := ih below
    omega

theorem Stack.raise (stack : Stack start size low top ids) (up : top ≤ higher) :
    Stack start size low higher ids := by
  cases ids with
  | nil => exact Int.le_trans stack up
  | cons id rest => exact ⟨Int.le_trans stack.1 up, stack.2⟩

theorem Stack.append (upper : Stack start size middle top ids)
    (lower : Stack start size low middle more) : Stack start size low top (ids ++ more) := by
  induction ids generalizing top with
  | nil => exact lower.raise upper
  | cons id rest ih => exact ⟨upper.1, upper.2.1, ih upper.2.2⟩

/-- Variables that are gone leave their cells empty. -/
theorem Stack.drop (stack : Stack start size low top (ids ++ more)) :
    Stack start size low top more := by
  induction ids generalizing top with
  | nil => exact stack
  | cons id rest ih =>
    obtain ⟨fits, some, below⟩ := stack
    exact (ih below).raise (by omega)

theorem Stack.congr (stack : Stack start size low top ids)
    (same : ∀ id ∈ ids, start' id = start id ∧ size' id = size id) :
    Stack start' size' low top ids := by
  induction ids generalizing top with
  | nil => exact stack
  | cons id rest ih =>
    obtain ⟨sameStart, sameSize⟩ := same id List.mem_cons_self
    rw [Stack, sameStart, sameSize]
    exact ⟨stack.1, stack.2.1, ih stack.2.2 fun other mem =>
      same other (List.mem_cons_of_mem id mem)⟩

/-- Every variable of a stack lies between its bounds. -/
theorem Stack.inside (stack : Stack start size low top ids) :
    ∀ id ∈ ids, low ≤ start id ∧ start id + size id ≤ top := by
  induction ids generalizing top with
  | nil => nofun
  | cons id rest ih =>
    obtain ⟨fits, some, below⟩ := stack
    intro other mem
    rcases List.mem_cons.mp mem with rfl | mem
    · exact ⟨below.low_le, fits⟩
    · obtain ⟨above, ends⟩ := ih below other mem
      exact ⟨above, by omega⟩

/-- No two variables of a stack share a cell. -/
theorem Stack.apart (stack : Stack start size low top ids) : ids.Pairwise fun v w =>
    Disjoint (Set.Ico (start v) (start v + size v)) (Set.Ico (start w) (start w + size w)) := by
  induction ids generalizing top with
  | nil => exact .nil
  | cons id rest ih =>
    obtain ⟨fits, some, below⟩ := stack
    refine .cons (fun other mem => ?_) (ih below)
    have ends := (below.inside other mem).2
    rw [Set.Ico_disjoint_Ico]
    omega

end Stacks

/-! ## The invariant -/

/-- The local variables of every scope lie on those of the next outer one. A function has a frame of
its own. -/
def Stacked (s : Session) : Int → List OpenScope → Prop
  | _, [] => True
  | top, scope :: outer =>
    if scope.isFunction then inFunction outer = false ∧ Stack s.localStart s.words frameStart top
    (scope.variables s)
    else if inFunction outer then
      Stack s.localStart s.words scope.saved.displacement top (scope.variables s) ∧
        Stacked s scope.saved.displacement outer
    else True

theorem stacked_function {scope : OpenScope} {outer : List OpenScope} {top : Int}
    (function : scope.isFunction = true) : Stacked s top (scope :: outer) ↔
    inFunction outer = false ∧ Stack s.localStart s.words frameStart top (scope.variables s) := by
  rw [Stacked, if_pos function]

theorem stacked_block {scope : OpenScope} {outer : List OpenScope} {top : Int}
    (block : scope.isFunction = false) : Stacked s top (scope :: outer) ↔ (inFunction outer = true →
      Stack s.localStart s.words scope.saved.displacement top (scope.variables s) ∧
      Stacked s scope.saved.displacement outer) := by
  rw [Stacked, if_neg (by simp [block])]
  split
  next inside => exact ⟨fun both _ => both, fun given => given inside⟩
  next outside => exact iff_of_true trivial fun inside => absurd inside outside

/-- How the variables of the open scopes lie in their frames. -/
structure Allotted (s : Session) (scopes : List OpenScope) : Prop where
  some : 0 < s.identifiers.size
  sound : s.types.Sound
  isLocal : s.isLocal = inFunction scopes
  declared : ∀ scope ∈ scopes, ∀ d ∈ scope.declared, d.2 < s.identifiers.size
  sized : ∀ id, s.isVariable id = true → s.types.Valid (s.identifier id).type
  stacked : Stacked s s.displacement scopes
  highest : s.isLocal = true → s.displacement ≤ s.maxDisplacement
  /-- The variables of an open function, those of closed blocks too, lie below the highest
  displacement. -/
  framed : ∀ scope ∈ scopes, scope.isFunction = true → scope.before.identifiers.size ≤
    s.identifiers.size ∧ ∀ id : Int, scope.before.identifiers.size ≤ id →
    id < s.identifiers.size → s.isVariable id = true →
    frameStart ≤ s.localStart id ∧ s.localStart id + s.words id ≤ s.maxDisplacement
  global : Stack s.globalStart s.words frameStart s.globalDisplacement (globals s scopes)

/-- A session goes on from another: declarations and types are kept. -/
structure Extends (s t : Session) : Prop where
  more : s.identifiers.size ≤ t.identifiers.size
  identifiers : ∀ id : Int, id < s.identifiers.size → t.identifier id = s.identifier id
  types : s.types.Continues t.types

section Extensions

variable {scope : OpenScope} {scopes : List OpenScope} {top : Int}

theorem Extends.isVariable (ext : s.Extends t) (old : id < s.identifiers.size) :
    t.isVariable id = s.isVariable id := by
  rw [Session.isVariable, Session.isVariable, ext.identifiers id old]

theorem Extends.words (ext : s.Extends t)
    (allotted : s.Allotted scopes) (old : id < s.identifiers.size)
    (isVariable : s.isVariable id = true) : t.words id = s.words id := by
  have same := (allotted.sized id isVariable).sizeOf_continue allotted.sound.size ext.types
  rw [Session.words, Session.words, ext.identifiers id old, same]

theorem Extends.variables (ext : s.Extends t)
    (declared : ∀ d ∈ scope.declared, d.2 < s.identifiers.size) :
    scope.variables t = scope.variables s := by
  refine List.filter_congr fun id mem => ?_
  obtain ⟨d, there, rfl⟩ := List.mem_map.mp mem
  exact ext.isVariable (declared d there)

theorem Extends.globals (ext : s.Extends t)
    (declared : ∀ scope ∈ scopes, ∀ d ∈ scope.declared, d.2 < s.identifiers.size) :
    t.globals scopes = s.globals scopes := by
  induction scopes with
  | nil => rfl
  | cons scope outer ih =>
    have inner := ih fun other mem => declared other (List.mem_cons_of_mem scope mem)
    rw [Session.globals, Session.globals, inner, ext.variables (declared scope List.mem_cons_self)]

theorem mem_variables (mem : id ∈ scope.variables s) : (∃ d ∈ scope.declared, d.2 = id) ∧
    s.isVariable id = true := by
  obtain ⟨there, isVariable⟩ := List.mem_filter.mp mem
  exact ⟨List.mem_map.mp there, isVariable⟩

theorem mem_globals (mem : id ∈ s.globals scopes) :
    (∃ scope ∈ scopes, ∃ d ∈ scope.declared, d.2 = id) ∧ s.isVariable id = true := by
  induction scopes with
  | nil => cases mem
  | cons scope outer ih =>
    have later (mem : id ∈ s.globals outer) :
        (∃ scope' ∈ scope :: outer, ∃ d ∈ scope'.declared, d.2 = id) ∧ s.isVariable id = true := by
      obtain ⟨⟨other, there, found⟩, isVariable⟩ := ih mem
      exact ⟨⟨other, List.mem_cons_of_mem scope there, found⟩, isVariable⟩
    unfold Session.globals at mem
    split at mem
    · exact later mem
    · rcases List.mem_append.mp mem with own | mem
      · obtain ⟨found, isVariable⟩ := mem_variables own
        exact ⟨⟨scope, List.mem_cons_self, found⟩, isVariable⟩
      · exact later mem

/-- Variables of a session lie where they lay. -/
theorem Extends.same (ext : s.Extends t) (allotted : s.Allotted scopes)
    (old : id < s.identifiers.size) (isVariable : s.isVariable id = true) :
    t.localStart id = s.localStart id ∧ t.globalStart id = s.globalStart id ∧
    t.words id = s.words id := by
  refine ⟨?_, ?_, ext.words allotted old isVariable⟩
  · rw [localStart, localStart, ext.identifiers id old]
  · rw [globalStart, globalStart, ext.identifiers id old]

theorem Extends.stack (ext : s.Extends t) (allotted : s.Allotted scopes) {low : Int}
    (declared : ∀ d ∈ scope.declared, d.2 < s.identifiers.size)
    (stack : Stack s.localStart s.words low top (scope.variables s)) :
    Stack t.localStart t.words low top (scope.variables t) := by
  rw [ext.variables declared]
  refine stack.congr fun id mem => ?_
  obtain ⟨⟨d, there, rfl⟩, isVariable⟩ := mem_variables mem
  obtain ⟨sameStart, _, sameSize⟩ := ext.same allotted (declared d there) isVariable
  exact ⟨sameStart, sameSize⟩

theorem Extends.stacked (ext : s.Extends t) (allotted : s.Allotted scopes) {inner : List OpenScope}
    (declared : ∀ scope ∈ inner, ∀ d ∈ scope.declared, d.2 < s.identifiers.size)
    (stacked : Stacked s top inner) : Stacked t top inner := by
  induction inner generalizing top with
  | nil => trivial
  | cons scope outer ih =>
    have own := declared scope List.mem_cons_self
    have older := fun other mem => declared other (List.mem_cons_of_mem scope mem)
    by_cases function : scope.isFunction = true
    · rw [stacked_function function] at stacked ⊢
      exact ⟨stacked.1, ext.stack allotted own stacked.2⟩
    · rw [stacked_block (by simpa using function)] at stacked ⊢
      intro inside
      exact ⟨ext.stack allotted own (stacked inside).1, ih older (stacked inside).2⟩

theorem Extends.global (ext : s.Extends t) (allotted : s.Allotted scopes) {inner : List OpenScope}
    (declared : ∀ scope ∈ inner, ∀ d ∈ scope.declared, d.2 < s.identifiers.size)
    (global : Stack s.globalStart s.words frameStart top (s.globals inner)) :
    Stack t.globalStart t.words frameStart top (t.globals inner) := by
  rw [ext.globals declared]
  refine global.congr fun id mem => ?_
  obtain ⟨⟨other, there, d, own, rfl⟩, isVariable⟩ := mem_globals mem
  exact (ext.same allotted (declared other there d own) isVariable).2

/-- Nothing is declared and no type is made. -/
theorem extends_of_eq (identifiers : t.identifiers = s.identifiers) (types : t.types = s.types) :
    s.Extends t := by
  refine ⟨Nat.le_of_eq (congrArg Array.size identifiers.symm), fun id _ => ?_, types ▸ .refl _⟩
  rw [identifier, identifier, identifiers]

end Extensions

/-! ## The calls keep the invariant -/

section Steps

variable {scope next : OpenScope} {scopes outer : List OpenScope} {top : Int}

@[simp] theorem inFunction_cons :
    inFunction (scope :: outer) = (scope.isFunction || inFunction outer) :=
  rfl

theorem Stacked.low_le (stacked : Stacked s top scopes) (inside : inFunction scopes = true) :
    frameStart ≤ top := by
  induction scopes generalizing top with
  | nil => cases inside
  | cons scope outer ih =>
    by_cases function : scope.isFunction = true
    · exact ((stacked_function function).mp stacked).2.low_le
    · have block : scope.isFunction = false := by simpa using function
      rw [inFunction_cons, block, Bool.false_or] at inside
      obtain ⟨own, older⟩ := (stacked_block block).mp stacked inside
      exact Int.le_trans (ih older inside) own.low_le

/-- Outside of functions, there is nothing in the local frame. -/
theorem stacked_of_outside (outside : inFunction scopes = false) : Stacked s top scopes := by
  cases scopes with
  | nil => trivial
  | cons scope outer =>
    obtain ⟨block, outside⟩ := by simpa using outside
    refine (stacked_block block).mpr fun inside => ?_
    rw [outside] at inside
    cases inside

/-- The names that no declaration has stand for a variable without cells. -/
theorem valid_of_out (out : ¬ (0 < id ∧ id < s.identifiers.size)) :
    s.types.Valid (s.identifier id).type := by
  rw [identifier_of_out out]
  exact .scalar (by decide)

theorem allotted_new (rootType : Int) (journal : Journal) :
    (new rootType journal).Allotted [⟨false, ⟨0, 0⟩, new rootType journal, []⟩] where
  some := Nat.one_pos
  sound := TypeTable.sound_empty
  isLocal := rfl
  declared := by simp
  sized id _ := by
    refine valid_of_out fun ⟨low, high⟩ => ?_
    have single : (new rootType journal).identifiers.size = 1 := rfl
    omega
  stacked := stacked_of_outside rfl
  highest := nofun
  framed := by simp
  global := Int.le_refl _

/-- A step that takes in no variable and leaves the frames alone. -/
theorem Allotted.keep (allotted : s.Allotted scopes) (ext : s.Extends t) (frame : s.SameFrame t)
    (sound : t.types.Sound) (none : ∀ id : Int, s.identifiers.size ≤ id → id < t.identifiers.size →
      t.isVariable id = false) : t.Allotted scopes where
  some := Nat.lt_of_lt_of_le allotted.some ext.more
  sound := sound
  isLocal := frame.isLocal.trans allotted.isLocal
  declared scope mem d there := by
    have := allotted.declared scope mem d there
    have := ext.more
    omega
  sized id isVariable := by
    by_cases old : id < s.identifiers.size
    · rw [ext.identifiers id old]
      exact (allotted.sized id (ext.isVariable old ▸ isVariable)).continue ext.types
    · refine valid_of_out fun ⟨_, high⟩ => ?_
      rw [none id (by omega) high] at isVariable
      cases isVariable
  stacked := by
    rw [frame.displacement]
    exact ext.stacked allotted allotted.declared allotted.stacked
  highest inside := by
    rw [frame.displacement, frame.maxDisplacement]
    exact allotted.highest (frame.isLocal ▸ inside)
  framed scope mem function := by
    obtain ⟨before, framed⟩ := allotted.framed scope mem function
    refine ⟨Nat.le_trans before ext.more, fun id low high isVariable => ?_⟩
    by_cases old : id < s.identifiers.size
    · rw [ext.isVariable old] at isVariable
      obtain ⟨sameStart, _, sameSize⟩ := ext.same allotted old isVariable
      rw [sameStart, sameSize, frame.maxDisplacement]
      exact framed id low old isVariable
    · rw [none id (by omega) high] at isVariable
      cases isVariable
  global := by
    rw [frame.globalDisplacement]
    exact ext.global allotted allotted.declared allotted.global

theorem Allotted.intern (allotted : s.Allotted scopes) (text : String) :
    (s.intern text).1.Allotted scopes := by
  refine allotted.keep (t := (s.intern text).1) ⟨Nat.le_refl _, fun _ _ => rfl, .refl _⟩ ⟨rfl, rfl,
    rfl, rfl⟩ allotted.sound fun id low high => ?_
  have same : (s.intern text).1.identifiers = s.identifiers := rfl
  rw [same] at high
  omega

theorem Allotted.types (allotted : s.Allotted scopes) {made : TypeTable × TypeId}
    (makes : s.types.Makes made) : Allotted { s with types := made.1 } scopes := by
  have added := makes.added allotted.sound
  refine allotted.keep (t := { s with types := made.1 }) ⟨Nat.le_refl _, fun _ _ => rfl,
    added.continues⟩ ⟨rfl, rfl, rfl, rfl⟩ added.sound fun id low high => ?_
  simp only at high
  omega

/-- A declaration extends a session by one identifier. -/
theorem extends_push {e : Identifier} (types : t.types = s.types)
    (pushed : t.identifiers = s.identifiers.push e) : s.Extends t := by
  refine ⟨?_, fun id old => identifier_push pushed old, ?_⟩
  · rw [pushed, Array.size_push]
    exact Nat.le_succ _
  · rw [types]
    exact .refl _

/-- The variables of a scope behind a declaration. -/
theorem variables_add {e : Identifier} (some : 0 < s.identifiers.size)
    (pushed : t.identifiers = s.identifiers.push e)
    (types : t.types = s.types) (declared : ∀ d ∈ scope.declared, d.2 < s.identifiers.size) :
    (scope.add spelling e.kind s.identifiers.size).variables t =
      if e.kind = .variable then (s.identifiers.size : Int) :: scope.variables s
          else scope.variables s := by
  have old := (extends_push types pushed).variables declared
  unfold OpenScope.add
  split
  next label => rw [if_neg (by simp [label]), old]
  next =>
    have isNew : t.isVariable s.identifiers.size = decide (e.kind = .variable) := by
      rw [Session.isVariable, identifier_last pushed some]
      rfl
    rw [OpenScope.variables] at old ⊢
    rw [List.map_cons, List.filter_cons, isNew, old]
    simp only [decide_eq_true_eq]

@[simp] theorem isFunction_add (scope : OpenScope) (spelling : Int) (kind : IdentKind) (id : Int) :
    (scope.add spelling kind id).isFunction = scope.isFunction := by
  unfold OpenScope.add
  split <;> rfl

theorem declared_add (allotted : s.Allotted (scope :: outer))
    (more : s.identifiers.size < t.identifiers.size) :
    ∀ other ∈ scope.add spelling kind s.identifiers.size :: outer, ∀ d ∈ other.declared, d.2 <
    t.identifiers.size := by
  intro other mem d there
  rcases List.mem_cons.mp mem with rfl | mem
  · unfold OpenScope.add at there
    split at there
    · have := allotted.declared scope List.mem_cons_self d there
      omega
    · rcases List.mem_cons.mp there with rfl | there
      · exact Int.ofNat_lt.mpr more
      · have := allotted.declared scope List.mem_cons_self d there
        omega
  · have := allotted.declared other (List.mem_cons_of_mem scope mem) d there
    omega

theorem framed_add (allotted : t.Allotted (scope :: outer)) :
    ∀ other ∈ scope.add spelling kind id :: outer, other.isFunction = true →
    other.before.identifiers.size ≤ t.identifiers.size ∧
    ∀ v : Int, other.before.identifiers.size ≤ v → v < t.identifiers.size → t.isVariable v = true →
    frameStart ≤ t.localStart v ∧ t.localStart v + t.words v ≤ t.maxDisplacement := by
  intro other mem function
  rcases List.mem_cons.mp mem with rfl | mem
  · rw [before_add]
    exact allotted.framed scope List.mem_cons_self (by simpa using function)
  · exact allotted.framed other (List.mem_cons_of_mem scope mem) function

/-- A declaration that is no variable belongs to its scope, but has no cells. -/
theorem Allotted.declare_other {e : Identifier} (allotted : s.Allotted (scope :: outer))
    (types : t.types = s.types) (pushed : t.identifiers = s.identifiers.push e)
    (frame : s.SameFrame t) (other : e.kind ≠ .variable) :
    t.Allotted (scope.add spelling e.kind s.identifiers.size :: outer) := by
  have ext := extends_push types pushed
  have more : s.identifiers.size < t.identifiers.size := by
    rw [pushed, Array.size_push]
    exact Nat.lt_succ_self _
  have kept : t.Allotted (scope :: outer) := by
    refine allotted.keep ext frame (types ▸ allotted.sound) fun id low high => ?_
    have last : id = s.identifiers.size := by
      rw [pushed, Array.size_push] at high
      omega
    rw [last, isVariable, identifier_last pushed allotted.some]
    simpa using other
  have own := allotted.declared scope List.mem_cons_self
  have same : (scope.add spelling e.kind s.identifiers.size).variables t = scope.variables t := by
    rw [variables_add allotted.some pushed types own, if_neg other, ext.variables own]
  refine ⟨kept.some, kept.sound, ?_, declared_add allotted more, kept.sized, ?_, kept.highest,
    framed_add kept, ?_⟩
  · rw [kept.isLocal, inFunction_cons, inFunction_cons, isFunction_add]
  · have stacked := kept.stacked
    rw [Stacked] at stacked ⊢
    rw [same, isFunction_add, saved_add]
    exact stacked
  · have global := kept.global
    rw [globals] at global ⊢
    rw [same, isFunction_add]
    exact global

/-- A variable is taken in: its declaration stands behind the others. -/
structure TakesIn (s : Session) (e : Identifier) (n : Int) (t : Session) : Prop where
  isVariable : e.kind = .variable
  types : t.types = s.types
  pushed : t.identifiers = s.identifiers.push e
  valid : s.types.Valid e.type
  size : s.types.sizeOf e.type = .ok n

section Variables

variable {e : Identifier} {n : Int}

theorem TakesIn.ext (takes : s.TakesIn e n t) : s.Extends t := extends_push takes.types takes.pushed

theorem TakesIn.size_push (takes : s.TakesIn e n t) :
    t.identifiers.size = s.identifiers.size + 1 := by
  rw [takes.pushed, Array.size_push]

theorem TakesIn.words (takes : s.TakesIn e n t) (some : 0 < s.identifiers.size) :
    t.words s.identifiers.size = n := by
  rw [Session.words, identifier_last takes.pushed some, takes.types, takes.size]

theorem TakesIn.sized (takes : s.TakesIn e n t) (allotted : s.Allotted scopes) :
    ∀ id, t.isVariable id = true → t.types.Valid (t.identifier id).type := by
  intro id isVariable
  by_cases old : id < s.identifiers.size
  · rw [takes.ext.identifiers id old]
    exact (allotted.sized id (takes.ext.isVariable old ▸ isVariable)).continue takes.ext.types
  · by_cases new : id = s.identifiers.size
    · rw [new, identifier_last takes.pushed allotted.some, takes.types]
      exact takes.valid
    · have := takes.size_push
      exact valid_of_out fun ⟨_, high⟩ => by omega

theorem TakesIn.variables (takes : s.TakesIn e n t) (allotted : s.Allotted (scope :: outer)) :
    (scope.add spelling e.kind s.identifiers.size).variables t =
      (s.identifiers.size : Int) :: scope.variables t := by
  have own := allotted.declared scope List.mem_cons_self
  rw [variables_add allotted.some takes.pushed takes.types own, if_pos takes.isVariable,
    takes.ext.variables own]

theorem TakesIn.isLocal (frame : t.isLocal = s.isLocal) (allotted : s.Allotted (scope :: outer)) :
    t.isLocal = inFunction (scope.add spelling kind id :: outer) := by
  rw [frame, allotted.isLocal, inFunction_cons, inFunction_cons, isFunction_add]

/-- A variable of the local frame is taken in on top of the others. -/
theorem Allotted.declare_local (allotted : s.Allotted (scope :: outer)) (takes : s.TakesIn e n t)
    (inside : s.isLocal = true) (fits : 0 ≤ n ∧ s.displacement + n ≤ lastDisplacement)
    (place : e.displacement = (s.allocate n).2) (frame : (s.allocate n).1.SameFrame t) :
    t.Allotted (scope.add spelling e.kind s.identifiers.size :: outer) := by
  have ext := takes.ext
  have more := takes.size_push
  have count := takes.words allotted.some
  have there : inFunction (scope :: outer) = true := allotted.isLocal ▸ inside
  have low := allotted.stacked.low_le there
  have wraps : wrap64 (s.displacement + n) = s.displacement + n := by
    unfold frameStart at low
    unfold lastDisplacement at fits
    exact wrap64_of_range (by omega) (by omega)
  simp only [allocate, inside, if_true, wraps] at place frame
  have start : t.localStart s.identifiers.size = s.displacement := by
    rw [localStart, identifier_last takes.pushed allotted.some, place]
  have own := allotted.declared scope List.mem_cons_self
  have older : ∀ other ∈ outer, ∀ d ∈ other.declared, d.2 < s.identifiers.size := fun other mem =>
    allotted.declared other (List.mem_cons_of_mem scope mem)
  -- the new variable starts where the stack of its scope ended
  have grown {low : Int} (stack : Stack s.localStart s.words low s.displacement (scope.variables s))
      : Stack t.localStart t.words low (s.displacement + n)
      (s.identifiers.size :: scope.variables t) := by
    refine ⟨by rw [start, count], by rw [count]; exact fits.1, ?_⟩
    rw [start]
    exact ext.stack allotted own stack
  refine ⟨by omega, takes.types ▸ allotted.sound, TakesIn.isLocal (frame.isLocal.trans inside.symm)
    allotted, declared_add allotted (by omega), takes.sized allotted, ?_, ?_, ?_, ?_⟩
  · rw [frame.displacement]
    have stacked := allotted.stacked
    by_cases function : scope.isFunction = true
    · rw [stacked_function function] at stacked
      rw [stacked_function (by simpa using function), takes.variables allotted]
      exact ⟨stacked.1, grown stacked.2⟩
    · have block : scope.isFunction = false := by simpa using function
      rw [stacked_block block] at stacked
      rw [stacked_block (by simpa using block), takes.variables allotted, saved_add]
      intro inside
      exact ⟨grown (stacked inside).1, ext.stacked allotted older (stacked inside).2⟩
  · intro _
    rw [frame.displacement, frame.maxDisplacement]
    exact Int.le_max_right _ _
  · intro other mem function
    obtain ⟨same, mem, function, before⟩ : ∃ same ∈ scope :: outer, same.isFunction = true ∧
      same.before = other.before := by
      rcases List.mem_cons.mp mem with rfl | mem
      · exact ⟨scope, List.mem_cons_self, by simpa using function, by rw [before_add]⟩
      · exact ⟨other, List.mem_cons_of_mem scope mem, function, rfl⟩
    obtain ⟨since, framed⟩ := allotted.framed same mem function
    rw [← before]
    refine ⟨by omega, fun id later high isVariable => ?_⟩
    rw [frame.maxDisplacement]
    by_cases old : id < s.identifiers.size
    · rw [ext.isVariable old] at isVariable
      obtain ⟨sameStart, _, sameSize⟩ := ext.same allotted old isVariable
      rw [sameStart, sameSize]
      obtain ⟨above, below⟩ := framed id later old isVariable
      exact ⟨above, Int.le_trans below (Int.le_max_left _ _)⟩
    · have new : id = s.identifiers.size := by omega
      rw [new, start, count]
      exact ⟨low, Int.le_max_right _ _⟩
  · have outside :
      ((scope.add spelling e.kind s.identifiers.size).isFunction || inFunction outer) = true := by
      rw [isFunction_add, ← inFunction_cons, there]
    have global := allotted.global
    rw [globals, if_pos (by rw [← inFunction_cons, there])] at global
    rw [globals, if_pos outside, frame.globalDisplacement]
    exact ext.global allotted older global

/-- A variable of the global frame is taken in behind the others. -/
theorem Allotted.declare_global (allotted : s.Allotted (scope :: outer)) (takes : s.TakesIn e n t)
    (outside : s.isLocal = false) (fits : 0 ≤ n ∧ s.globalDisplacement + n ≤ lastDisplacement)
    (place : e.displacement = (s.allocate n).2) (frame : (s.allocate n).1.SameFrame t) :
    t.Allotted (scope.add spelling e.kind s.identifiers.size :: outer) := by
  have ext := takes.ext
  have more := takes.size_push
  have count := takes.words allotted.some
  have low := allotted.global.low_le
  unfold frameStart at low
  unfold lastDisplacement at fits
  have wraps : wrap64 (s.globalDisplacement + n) = s.globalDisplacement + n :=
    wrap64_of_range (by omega) (by omega)
  have turned : wrap64 (-s.globalDisplacement) = -s.globalDisplacement :=
    wrap64_of_range (by omega) (by omega)
  simp only [allocate, outside, Bool.false_eq_true, if_false, wraps, turned] at place frame
  have start : t.globalStart s.identifiers.size = s.globalDisplacement := by
    rw [globalStart, identifier_last takes.pushed allotted.some, place, Int.neg_neg]
  have own := allotted.declared scope List.mem_cons_self
  have none : inFunction (scope :: outer) = false := allotted.isLocal ▸ outside
  have none' : inFunction (scope.add spelling e.kind s.identifiers.size :: outer) = false := by
    rw [inFunction_cons, isFunction_add, ← inFunction_cons, none]
  refine ⟨by omega, takes.types ▸ allotted.sound, TakesIn.isLocal (frame.isLocal.trans outside.symm)
    allotted, declared_add allotted (by omega), takes.sized allotted, stacked_of_outside none', ?_,
    ?_, ?_⟩
  · intro inside
    rw [frame.isLocal] at inside
    cases inside
  · intro other mem function
    have : inFunction (scope.add spelling e.kind s.identifiers.size :: outer) = true :=
      List.any_eq_true.mpr ⟨other, mem, function⟩
    rw [none'] at this
    cases this
  · have global := allotted.global
    rw [globals, if_neg (by rw [← inFunction_cons, none]; exact Bool.false_ne_true)] at global
    rw [globals, if_neg (by rw [← inFunction_cons, none']; exact Bool.false_ne_true),
      frame.globalDisplacement, takes.variables allotted]
    refine ⟨by rw [start, count], by rw [count]; exact fits.1, ?_⟩
    rw [start, ext.variables own, ext.globals fun other mem =>
      allotted.declared other (List.mem_cons_of_mem scope mem)]
    refine global.congr fun id mem => ?_
    have old : id < s.identifiers.size ∧ s.isVariable id = true := by
      rcases List.mem_append.mp mem with mem | mem
      · obtain ⟨⟨d, there, rfl⟩, isVariable⟩ := mem_variables mem
        exact ⟨own d there, isVariable⟩
      · obtain ⟨⟨other, there, d, declared, rfl⟩, isVariable⟩ := mem_globals mem
        exact ⟨allotted.declared other (List.mem_cons_of_mem scope there) d declared, isVariable⟩
    exact (ext.same allotted old.1 old.2).2

end Variables

/-- A declaration that is taken in keeps the frames in order. -/
theorem Allotted.declare (allotted : s.Allotted (scope :: outer)) (valid : s.types.Valid type)
    (fits : kind = .variable → s.Roomy type)
    (done : s.declare spelling kind type = .ok (.ok (t, id))) :
    t.Allotted (scope.add spelling kind id :: outer) := by
  obtain ⟨rfl, types, e, pushed, rfl, rfl, other, taken⟩ := declare_eq done
  by_cases isVariable : e.kind = .variable
  · obtain ⟨n, size, place, frame⟩ := taken isVariable
    have takes : s.TakesIn e n t := ⟨isVariable, types, pushed, valid, size⟩
    have room := fits isVariable n size
    by_cases inside : s.isLocal = true
    · rw [if_pos inside] at room
      exact allotted.declare_local takes inside room place frame
    · rw [if_neg inside] at room
      exact allotted.declare_global takes (by simpa using inside) room place frame
  · exact allotted.declare_other types pushed (other isVariable) isVariable

/-- Hiding declarations changes only what spellings stand for. -/
theorem hideAll_eq {entries : List Identifier} (done : s.hideAll entries = .ok t) :
    ∃ p, t = { s with spellings := p } := by
  induction entries generalizing s with
  | nil =>
    cases done
    exact ⟨_, rfl⟩
  | cons e rest ih =>
    unfold hideAll at done
    dsimp only at done
    split at done
    · obtain ⟨p, rfl⟩ := ih done
      exact ⟨p, rfl⟩
    · obtain ⟨u, shown, done⟩ := Guarded.bind_eq_ok.mp done
      obtain ⟨p, -, made⟩ := Guarded.bind_eq_ok.mp shown
      cases made
      obtain ⟨q, rfl⟩ := ih done
      exact ⟨q, rfl⟩

theorem exitBlock_eq {saved : Scope} (done : s.exitBlock saved = .ok t) : ∃ p, t =
    { s with spellings := p, scopeStart := saved.start, displacement := saved.displacement } := by
  obtain ⟨u, hidden, done⟩ := Guarded.bind_eq_ok.mp done
  obtain ⟨p, rfl⟩ := hideAll_eq hidden
  cases done
  exact ⟨p, rfl⟩

theorem exitFunction_eq {saved : Scope} {n : Int} (done : s.exitFunction saved = .ok (t, n)) :
    n = s.maxDisplacement ∧ ∃ p, t = { s with
      spellings := p
      scopeStart := saved.start
      displacement := saved.displacement
      isLocal := false } := by
  obtain ⟨u, closed, done⟩ := Guarded.bind_eq_ok.mp done
  obtain ⟨p, rfl⟩ := exitBlock_eq closed
  cases done
  exact ⟨rfl, p, rfl⟩

/-- A new block has no variables yet; its cells start where those of the outer scope end. -/
theorem Allotted.enterBlock (allotted : s.Allotted scopes) :
    s.enterBlock.1.Allotted (⟨false, s.enterBlock.2, s, []⟩ :: scopes) := by
  have ext : s.Extends s.enterBlock.1 := extends_of_eq rfl rfl
  refine ⟨allotted.some, allotted.sound, allotted.isLocal, ?_, allotted.sized, ?_, allotted.highest,
    ?_, ?_⟩
  · intro scope mem d there
    rcases List.mem_cons.mp mem with rfl | mem
    · cases there
    · exact allotted.declared scope mem d there
  · rw [stacked_block rfl]
    intro _
    exact ⟨Int.le_refl s.displacement, ext.stacked allotted allotted.declared allotted.stacked⟩
  · intro scope mem function
    rcases List.mem_cons.mp mem with rfl | mem
    · cases function
    · exact allotted.framed scope mem function
  · rw [globals]
    split <;> exact ext.global allotted allotted.declared allotted.global

/-- A block that is left gives its cells back. -/
theorem Allotted.exitBlock (allotted : s.Allotted (scope :: outer))
    (block : scope.isFunction = false)
    (done : s.exitBlock scope.saved = .ok t) : t.Allotted outer := by
  obtain ⟨p, rfl⟩ := exitBlock_eq done
  have ext : s.Extends { s with
      spellings := p
      scopeStart := scope.saved.start
      displacement := scope.saved.displacement } :=
    extends_of_eq rfl rfl
  have inside : inFunction (scope :: outer) = inFunction outer := by
    rw [inFunction_cons, block, Bool.false_or]
  have older (other : OpenScope) (mem : other ∈ outer) : other ∈ scope :: outer :=
    List.mem_cons_of_mem scope mem
  have declared (other : OpenScope) (mem : other ∈ outer) :=
    allotted.declared other (older other mem)
  refine ⟨allotted.some, allotted.sound, allotted.isLocal.trans inside, declared, allotted.sized,
    ?_, fun isLocal => ?_, fun other mem => allotted.framed other (older other mem), ?_⟩
  · by_cases function : inFunction outer = true
    · exact ext.stacked allotted declared ((stacked_block block).mp allotted.stacked function).2
    · exact stacked_of_outside (by simpa using function)
  · have function : inFunction outer = true := by rw [← inside, ← allotted.isLocal]; exact isLocal
    have lower := ((stacked_block block).mp allotted.stacked function).1.low_le
    exact Int.le_trans lower (allotted.highest isLocal)
  · have global := allotted.global
    rw [globals] at global
    split at global
    · exact ext.global allotted declared global
    · exact ext.global allotted declared global.drop

/-- A function starts with an empty frame. -/
theorem Allotted.enterFunction (allotted : s.Allotted scopes) (single : inFunction scopes = false) :
    s.enterFunction.1.Allotted (⟨true, s.enterFunction.2, s, []⟩ :: scopes) := by
  refine ⟨allotted.some, allotted.sound, rfl, ?_, allotted.sized, ?_, fun _ => Int.le_refl
    frameStart, ?_, ?_⟩
  · intro scope mem d there
    rcases List.mem_cons.mp mem with rfl | mem
    · cases there
    · exact allotted.declared scope mem d there
  · rw [stacked_function rfl]
    exact ⟨single, Int.le_refl frameStart⟩
  · intro scope mem function
    rcases List.mem_cons.mp mem with rfl | mem
    · refine ⟨Nat.le_refl _, fun id low high => ?_⟩
      have same : s.enterFunction.1.identifiers = s.identifiers := rfl
      rw [same] at high
      exact absurd low (Int.not_le.mpr high)
    · have : inFunction scopes = true := List.any_eq_true.mpr ⟨scope, mem, function⟩
      rw [single] at this
      cases this
  · have ext : s.Extends s.enterFunction.1 := extends_of_eq rfl rfl
    rw [globals, if_pos (by rfl)]
    exact ext.global allotted allotted.declared allotted.global

/-- A function that is left leaves only global variables. -/
theorem Allotted.exitFunction (allotted : s.Allotted (scope :: outer))
    (function : scope.isFunction = true) {n : Int}
    (done : s.exitFunction scope.saved = .ok (t, n)) : t.Allotted outer := by
  obtain ⟨_, p, rfl⟩ := exitFunction_eq done
  have single := ((stacked_function function).mp allotted.stacked).1
  have older (other : OpenScope) (mem : other ∈ outer) : other ∈ scope :: outer :=
    List.mem_cons_of_mem scope mem
  have declared (other : OpenScope) (mem : other ∈ outer) :=
    allotted.declared other (older other mem)
  refine ⟨allotted.some, allotted.sound, single.symm, declared, allotted.sized,
    stacked_of_outside single, nofun, fun other mem => allotted.framed other (older other mem), ?_⟩
  have global := allotted.global
  rw [globals, if_pos (by rw [function, Bool.true_or])] at global
  have ext : s.Extends { s with
      spellings := p
      scopeStart := scope.saved.start
      displacement := scope.saved.displacement
      isLocal := false } :=
    extends_of_eq rfl rfl
  exact ext.global allotted declared global

/-- Every sequence of calls keeps the frames in order. -/
theorem Laid.allotted (laid : Laid Roomy s scopes) : s.Allotted scopes := by
  induction laid with
  | start rootType journal => exact allotted_new rootType journal
  | intern _ text ih => exact ih.intern text
  | types _ makes ih => exact ih.types makes
  | declare _ _ valid fits done ih => exact ih.declare valid fits done
  | enterBlock _ ih => exact ih.enterBlock
  | exitBlock _ block done ih => exact ih.exitBlock block done
  | enterFunction _ single ih => exact ih.enterFunction single
  | exitFunction _ function done ih => exact ih.exitFunction function done

/-- All living variables of the local frame are one stack. -/
theorem Stacked.locals (stacked : Stacked s top scopes) (inside : inFunction scopes = true) :
    Stack s.localStart s.words frameStart top (locals s scopes) := by
  induction scopes generalizing top with
  | nil => cases inside
  | cons scope outer ih =>
    unfold Session.locals
    by_cases function : scope.isFunction = true
    · rw [if_pos function]
      exact ((stacked_function function).mp stacked).2
    · have block : scope.isFunction = false := by simpa using function
      rw [inFunction_cons, block, Bool.false_or] at inside
      obtain ⟨own, older⟩ := (stacked_block block).mp stacked inside
      rw [if_neg function, if_pos inside]
      exact own.append (ih older inside)

/-- Outside of functions there are no local variables. -/
theorem locals_of_outside (outside : inFunction scopes = false) : locals s scopes = [] := by
  cases scopes with
  | nil => rfl
  | cons scope outer =>
    obtain ⟨block, outside⟩ := by simpa using outside
    rw [locals, if_neg (by simp [block]), if_neg (by simp [outside])]

/-- A function that is left gives the highest displacement of its frame. -/
theorem Laid.leaves {room : Session → TypeId → Prop} (laid : Laid room s (scope :: next :: outer)) :
    ∃ t, s.exitFunction scope.saved = .ok (t, s.maxDisplacement) := by
  obtain ⟨rootType, journal, reached⟩ := laid.reached
  obtain ⟨_, follows⟩ := reached.follows (follows_new rootType journal)
  obtain ⟨t, closed, _⟩ := follows.exit
  refine ⟨{ t with isLocal := false }, ?_⟩
  rw [Session.exitFunction, closed]
  rfl

/-- No two variables that live at the same time share a cell of their frame, and every variable lies
inside of its frame. For a local variable the frame is the one whose size its function gives when it
is left: it has room for all variables that were declared since the function was entered, in blocks
that are closed as in open ones. -/
theorem laid_apart (laid : Laid Roomy s scopes) :
    (locals s scopes).Pairwise (fun v w => Disjoint (s.localCells v) (s.localCells w)) ∧
    (∀ v ∈ locals s scopes, frameStart ≤ s.localStart v ∧
      s.localStart v + s.words v ≤ s.maxDisplacement) ∧
    (∀ scope next outer, scopes = scope :: next :: outer → scope.isFunction = true →
      ∃ t n, s.exitFunction scope.saved = .ok (t, n) ∧
      (∀ v ∈ locals s scopes, s.localCells v ⊆ Set.Ico frameStart n) ∧
      ∀ v : Int, scope.before.identifiers.size ≤ v → v < s.identifiers.size →
      s.isVariable v = true → frameStart ≤ s.localStart v ∧ s.localStart v + s.words v ≤ n) ∧
    (globals s scopes).Pairwise (fun v w => Disjoint (s.globalCells v) (s.globalCells w)) ∧
    ∀ v ∈ globals s scopes, frameStart ≤ s.globalStart v ∧
    s.globalStart v + s.words v ≤ s.globalDisplacement := by
  have allotted := laid.allotted
  have global := allotted.global
  by_cases inside : inFunction scopes = true
  · have stack :=
      (allotted.stacked.locals inside).raise (allotted.highest (allotted.isLocal.trans inside))
    refine ⟨stack.apart, stack.inside, ?_, global.apart, global.inside⟩
    rintro scope next outer rfl function
    obtain ⟨t, left⟩ := laid.leaves
    obtain ⟨_, framed⟩ := allotted.framed scope List.mem_cons_self function
    refine ⟨t, s.maxDisplacement, left, fun v mem => ?_, framed⟩
    obtain ⟨low, high⟩ := stack.inside v mem
    exact Set.Ico_subset_Ico low high
  · have outside : inFunction scopes = false := by simpa using inside
    rw [locals_of_outside outside]
    refine ⟨.nil, nofun, ?_, global.apart, global.inside⟩
    rintro scope next outer rfl function
    rw [inFunction_cons, function] at outside
    cases outside

/-- A variable whose spelling is not yet declared in the innermost scope is taken in. -/
theorem Laid.variable {room : Session → TypeId → Prop} (laid : Laid room s (scope :: outer))
    (some : 0 < s.identifiers.size) (known : s.spellings.has spelling = true)
    (fresh : s.inCurrentScope (s.lookup spelling) = false) (valid : s.types.Valid type)
    {n : Int} (size : s.types.sizeOf type = .ok n) (fits : room s type) : ∃ t e,
    Laid room t (scope.add spelling .variable s.identifiers.size :: outer) ∧ s.TakesIn e n t ∧
    t.localStart s.identifiers.size = (s.allocate n).2 ∧ (s.allocate n).1.SameFrame t ∧
    t.spellings = s.spellings.shown spelling s.identifiers.size ∧ t.scopeStart = s.scopeStart := by
  have takes : s.Takes spelling .variable type := ⟨known, fun _ => ⟨n, size⟩⟩
  obtain ⟨u, cell, placed, done⟩ := declare_new takes (by simp) (by simp [SecondMain]) fresh
  obtain ⟨-, types, e, pushed, isVariable, rfl, -, taken⟩ := declare_eq done
  obtain ⟨m, sized, place, frame⟩ := taken rfl
  cases size.symm.trans sized
  refine ⟨_, e, laid.declare known valid (fun _ => fits) done,
    ⟨isVariable, types, pushed, valid, size⟩, ?_, frame, rfl, placed.scopeStart⟩
  rw [localStart, identifier_last pushed some, place]

end Steps

/-- A parameter `x` and a variable `x` of a block have a cell each, and the frame of the function
has both. -/
theorem laid_apart_shadow : ∃ s scopes, Laid Roomy s scopes ∧
    locals s scopes = [2, 1] ∧ Disjoint (s.localCells 2) (s.localCells 1) ∧
    s.localCells 1 = Set.Ico 3 4 ∧ s.localCells 2 = Set.Ico 4 5 := by
  have roomy {u : Session} (inside : u.isLocal = true) (low : u.displacement ≤ 4) :
    u.Roomy TypeId.int := by
    rintro n ⟨⟩
    rw [if_pos inside]
    unfold lastDisplacement
    omega
  have scalar (types : TypeTable) : types.Valid TypeId.int := .scalar (by decide)
  have first : Laid Roomy _ _ := .start 0 (.new none true)
  have opened := (first.intern "x").enterFunction rfl
  obtain ⟨s, same⟩ : ∃ s, s = ((new 0 (.new none true)).intern "x").1.enterFunction.1 := ⟨_, rfl⟩
  rw [← same] at opened
  have size : s.identifiers.size = 1 := same ▸ by decide +kernel
  have inside : s.isLocal = true := same ▸ by decide +kernel
  have low : s.displacement = 3 := same ▸ by decide +kernel
  have known : s.spellings.has 1 = true := same ▸ by decide +kernel
  have bare : s.inCurrentScope (s.lookup 1) = false := same ▸ by decide +kernel
  -- the parameter
  obtain ⟨t, e, laid, took, place, frame, shown, _⟩ :=
    opened.variable (n := 1) (by omega) known bare (scalar s.types) rfl (roomy inside (by omega))
  rw [size] at laid place shown
  have allocated : s.allocate 1 =
    ({ s with displacement := 4, maxDisplacement := max s.maxDisplacement 4 }, 3) := by
    simp [allocate, inside, low, wrap64]
  rw [allocated] at place frame
  -- the variable of the block
  have block := laid.enterBlock
  have count : t.enterBlock.1.identifiers.size = 2 := took.size_push.trans (by rw [size])
  have older : t.enterBlock.1.lookup 1 = 1 := by
    have : t.enterBlock.1.lookup = (s.spellings.shown 1 1).declaration :=
      congrArg Spellings.declaration shown
    rw [this, Spellings.declaration_shown known, Function.update_self]
  have there : t.enterBlock.1.spellings.has 1 = true := by
    have : t.enterBlock.1.spellings = s.spellings.shown 1 1 := shown
    rw [this, Spellings.has_shown, known]
  have start : t.enterBlock.1.scopeStart = 2 := by
    have : t.enterBlock.1.scopeStart = t.identifiers.size := rfl
    rw [this, took.size_push, size]
    rfl
  obtain ⟨u, f, final, took', place', frame', _⟩ := block.variable (n := 1) (by omega) there
    (by simp [inCurrentScope, older, start]) (scalar t.types) rfl
    (roomy (u := t.enterBlock.1) (frame.isLocal.trans inside) (frame.displacement.le))
  rw [count] at final place'
  have allocated' : (t.enterBlock.1.allocate 1).2 = 4 := by
    have inside' : t.enterBlock.1.isLocal = true := frame.isLocal.trans inside
    simp only [allocate, inside', if_true]
    exact frame.displacement
  rw [allocated'] at place'
  have words' : u.words 2 = 1 := by simpa [count] using took'.words (by omega)
  -- the block leaves the parameter alone
  have last : t.identifier 1 = e := by simpa [size] using identifier_last took.pushed (by omega)
  have parameter : t.isVariable 1 = true := by rw [isVariable, last, took.isVariable]; rfl
  have old : (1 : Int) < t.enterBlock.1.identifiers.size := by omega
  obtain ⟨start₁, _, words₁⟩ := took'.ext.same block.allotted old parameter
  have words : t.words 1 = 1 := by simpa [size] using took.words (by omega)
  have isVariable₁ : u.isVariable 1 = true := (took'.ext.isVariable old).trans parameter
  have isVariable₂ : u.isVariable 2 = true := by
    have last : u.identifier 2 = f := by simpa [count] using identifier_last took'.pushed (by omega)
    rw [isVariable, last, took'.isVariable]
    rfl
  have living (saved saved' : Scope) (before before' : Session) (root : OpenScope) :
      locals u [⟨false, saved, before, [(1, 2)]⟩, ⟨true, saved', before', [(1, 1)]⟩, root] =
      [2, 1] := by
    simp [locals, OpenScope.variables, isVariable₁, isVariable₂]
  refine ⟨u, _, final, living .., ?_, ?_, ?_⟩
  · have apart := (laid_apart final).1
    have two : [2, 1].Pairwise fun v w => Disjoint (u.localCells v) (u.localCells w) :=
      living .. ▸ apart
    exact (List.pairwise_cons.mp two).1 1 List.mem_cons_self
  · rw [localCells, start₁.trans place, words₁.trans words]
    rfl
  · have start₂ : u.localStart 2 = 4 := place'
    rw [localCells, start₂, words']
    rfl

/-- Structures of two structures of two structures, and so on, have sizes up to the last
displacement. -/
theorem Laid.wide {room : Session → TypeId → Prop} {scopes : List OpenScope}
    (laid : Laid room s scopes) (sound : s.types.Sound) (k : Nat) (small : k ≤ 62) :
    ∃ types id, Laid room { s with types } scopes ∧ types.Sound ∧ types.Valid id ∧
    types.sizeOf id = .ok (2 ^ k) := by
  induction k with
  | zero => exact ⟨s.types, TypeId.int, laid, sound, .scalar (by decide), rfl⟩
  | succ k ih =>
    obtain ⟨types, id, laid, sound, valid, size⟩ := ih (by omega)
    have fields : ∀ f ∈ [Field.mk id 1, Field.mk id 2], types.Valid f.type := by simp [valid]
    obtain ⟨new, n, done, added, total, size'⟩ := TypeTable.added_struct sound fields
    refine ⟨new.1, new.2, laid.types (.struct fields done), added.sound, added.valid,
      size'.trans ?_⟩
    have bound : (2 : Int) ^ k ≤ 2 ^ 61 := pow_le_pow_right₀ (by decide) (by omega)
    have pos : (0 : Int) < 2 ^ k := pow_pos (by decide) k
    have twice : wrap64 (2 ^ k + wrap64 (2 ^ k + 0)) = (2 : Int) ^ (k + 1) := by
      rw [wrap64_of_range (x := 2 ^ k + 0) (by omega) (by omega),
        wrap64_of_range (by omega) (by omega), pow_succ]
      omega
    rw [← total]
    simp only [TypeTable.totalSize, size, bind, Except.bind, pure, Except.pure, twice]

/-- Two variables that together outgrow the words: the function gives a frame that ends in front of
the second. -/
theorem laid_outgrown : ∃ s t scope next outer n v,
    Laid (fun _ _ => True) s (scope :: next :: outer) ∧ scope.isFunction = true ∧
    s.exitFunction scope.saved = .ok (t, n) ∧ v ∈ locals s (scope :: next :: outer) ∧
    s.localStart v = n ∧ s.words v = 2 ^ 62 := by
  have first : Laid (fun _ _ => True) _ _ := .start 0 (.new none true)
  have opened := ((first.intern "x").intern "y").enterFunction rfl
  have fresh (s : Session) : ((s.intern "x").1.intern "y").1.enterFunction.1.types = s.types := rfl
  obtain ⟨s, same⟩ :
      ∃ s, s = (((new 0 (.new none true)).intern "x").1.intern "y").1.enterFunction.1 :=
    ⟨_, rfl⟩
  rw [← same] at opened
  have sound : s.types.Sound := by
    rw [same, fresh]
    exact TypeTable.sound_empty
  have count : s.identifiers.size = 1 := same ▸ by decide +kernel
  have inside : s.isLocal = true := same ▸ by decide +kernel
  have low : s.displacement = 3 ∧ s.maxDisplacement = 3 := same ▸ by decide +kernel
  have known : s.spellings.has 1 = true ∧ s.spellings.has 2 = true := same ▸ by decide +kernel
  have bare : s.lookup 1 = 0 ∧ s.lookup 2 = 0 := same ▸ by decide +kernel
  obtain ⟨types, id, wide, _, valid, size⟩ := opened.wide sound 62 (by decide)
  have free {u : Session} {k : Int} (none : u.lookup k = 0) :
    u.inCurrentScope (u.lookup k) = false := by
    rw [none]
    rfl
  -- the first variable ends in front of the last displacement
  obtain ⟨t, e, laid, took, _, frame, shown, _⟩ := wide.variable (n := 2 ^ 62)
    (by rw [count]; exact Nat.one_pos) known.1 (free bare.1) valid size trivial
  have first : Session.allocate { s with types } (2 ^ 62) =
      ({ s with types, displacement := 3 + 2 ^ 62, maxDisplacement := 3 + 2 ^ 62 }, 3) := by
    simp [allocate, inside, low, wrap64]
  rw [first] at frame
  -- the second one starts there and ends behind it
  have has : t.spellings.has 2 = true := by rw [shown, Spellings.has_shown]; exact known.2
  have none : t.lookup 2 = 0 := by
    rw [lookup, shown, Spellings.declaration_shown known.1, Function.update_of_ne (by decide)]
    exact bare.2
  have two : t.identifiers.size = 2 := took.size_push.trans (by rw [count])
  have same : t.types = types := took.types
  obtain ⟨u, f, final, took', place, frame', _⟩ :=
    laid.variable (n := 2 ^ 62) (by omega) has (free none) (same ▸ valid) (same ▸ size) trivial
  have second : t.allocate (2 ^ 62) =
      ({ t with displacement := 3 - 2 ^ 63, maxDisplacement := 3 + 2 ^ 62 }, 3 + 2 ^ 62) := by
    have isLocal := frame.isLocal.trans inside
    simp [allocate, isLocal, frame.displacement, frame.maxDisplacement, wrap64]
  rw [second] at place frame'
  rw [two] at place
  obtain ⟨v, left⟩ := final.leaves
  refine ⟨u, v, _, _, _, _, 2, final, by simp, left, ?_,
    place.trans frame'.maxDisplacement.symm, ?_⟩
  · have isVariable₂ : u.isVariable 2 = true := by
      have last : u.identifier 2 = f := by simpa [two] using identifier_last took'.pushed (by omega)
      rw [isVariable, last, took'.isVariable]
      rfl
    simp [locals, OpenScope.add, OpenScope.variables, two, isVariable₂]
  · simpa [two] using took'.words (by omega)

end Session
end BilingualC
