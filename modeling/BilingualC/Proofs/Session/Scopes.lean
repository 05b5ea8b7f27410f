import Mathlib
import BilingualC.Checker
import BilingualC.Proofs.Session

/-!
# Scopes of a session

A session keeps no list of open scopes. It knows where the declarations of the innermost block
start, and every declaration remembers the one that it hides. `Session.Reached` gives a session
together with the stack of scopes that a sequence of calls has opened, and the invariant `Follows`
ties the two together:

1. what a spelling stands for is its declaration in the innermost open scope that has one;
2. undoing the declarations that were made since a scope was opened, last one first, gives the
  spellings back what they stood for then. Undoing twice is undoing once, so declarations of inner
  blocks that are already closed do no harm.

`reached_scopes` collects what follows for every sequence of calls.
-/

namespace BilingualC

/-! ## Spellings -/

namespace Spellings

variable {p : Spellings} {k j d : Int}

/-- The spellings with one declaration replaced. -/
def shown (p : Spellings) (k d : Int) : Spellings :=
  { p with
    entries :=
      p.entries.setIfInBounds k.toNat { p.entries.getD k.toNat default with declaration := d } }

@[simp] theorem size_shown : (p.shown k d).entries.size = p.entries.size := Array.size_setIfInBounds

theorem has_iff : p.has k = true ↔ 0 < k ∧ k < p.entries.size := by simp [has]

@[simp] theorem has_shown : (p.shown k d).has j = p.has j := by simp [has]

theorem setDeclaration_of_has (known : p.has k = true) (d : Int) :
    p.setDeclaration k d = .ok (p.shown k d) := by
  obtain ⟨low, high⟩ := has_iff.1 known
  have inside : k.toNat < p.entries.size := by omega
  have found : cellAt p.entries k = .ok p.entries[k.toNat] :=
    cellAt_of_lt (by omega) (Array.getElem?_eq_getElem inside)
  have entry : p.entries.getD k.toNat default = p.entries[k.toNat] := by simp [Array.getD, inside]
  rw [setDeclaration, found]
  simp only [bind, Except.bind, setCellAt_of_lt _ (by omega : 0 ≤ k) inside, shown, entry]
  rfl

theorem declaration_shown (known : p.has k = true) (d : Int) :
    (p.shown k d).declaration = Function.update p.declaration k d := by
  obtain ⟨low, high⟩ := has_iff.1 known
  have inside : k.toNat < p.entries.size := by omega
  funext j
  by_cases same : j = k
  · subst same
    rw [Function.update_self, declaration, has_shown, if_pos known]
    simp [shown, inside]
  · rw [Function.update_of_ne same, declaration, declaration, has_shown]
    by_cases there : p.has j = true
    · have other : k.toNat ≠ j.toNat := by
        obtain ⟨pos, _⟩ := has_iff.1 there
        omega
      simp [there, shown, other]
    · simp [there]

theorem text_shown (k d j : Int) : (p.shown k d).text j = p.text j := by
  rw [text, text, has_shown]
  by_cases there : p.has j = true
  · by_cases same : k.toNat = j.toNat
    · obtain ⟨pos, high⟩ := has_iff.1 there
      have inside : j.toNat < p.entries.size := by omega
      simp [there, shown, same, inside]
    · simp [there, shown, same]
  · simp [there]

/-- A text that is stored is there already, or it is appended and stands for nothing. -/
theorem intern_cases (p : Spellings) (text : String) : (p.intern text).1 = p ∨
    ∃ chains before, (p.intern text).1 = ⟨p.entries.push ⟨text, 0, before⟩, chains⟩ := by
  simp only [intern, internWith]
  split
  · exact .inl rfl
  · exact .inr ⟨_, _, rfl⟩

theorem has_push {chains : Array Nat} {e : Spelling} (known : p.has k = true) :
    Spellings.has ⟨p.entries.push e, chains⟩ k = true := by
  obtain ⟨pos, high⟩ := has_iff.1 known
  exact has_iff.2 ⟨pos, by simp; omega⟩

theorem entry_push {e : Spelling} (known : p.has k = true) :
    (p.entries.push e).getD k.toNat default = p.entries.getD k.toNat default := by
  obtain ⟨pos, high⟩ := has_iff.1 known
  have inside : k.toNat < p.entries.size := by omega
  simp [Array.getElem?_push_lt inside, inside]

/-- Storing a text shows no declaration. -/
theorem declaration_intern (p : Spellings) (text : String) :
    (p.intern text).1.declaration = p.declaration := by
  obtain same | ⟨chains, before, grown⟩ := p.intern_cases text
  · rw [same]
  · funext k
    rw [grown, declaration, declaration]
    by_cases known : p.has k = true
    · rw [has_push known, if_pos rfl, if_pos known, entry_push known]
    · rw [if_neg known, ite_eq_right_iff]
      intro there
      obtain ⟨pos, high⟩ := has_iff.1 there
      have last : k.toNat = p.entries.size := by
        have out : ¬ (0 < k ∧ k < p.entries.size) := fun inside => known (has_iff.2 inside)
        simp only [Array.size_push] at high
        omega
      simp [last]

theorem has_intern (text : String) (known : p.has k = true) : (p.intern text).1.has k = true := by
  obtain same | ⟨chains, before, grown⟩ := p.intern_cases text
  · rwa [same]
  · rw [grown]
    exact has_push known

theorem text_intern (text : String) (known : p.has k = true) :
    (p.intern text).1.text k = p.text k := by
  obtain same | ⟨chains, before, grown⟩ := p.intern_cases text
  · rw [same]
  · rw [grown, Spellings.text, Spellings.text, has_push known, if_pos rfl, if_pos known,
      entry_push known]

end Spellings

namespace Session

variable {s t : Session} {spelling : Int} {kind : IdentKind} {type : TypeId}

/-! ## Declarations -/

/-- A declaration with the number `id` has got its place: only the frame, the list of functions and
the entry point may have changed. -/
structure Placed (s : Session) (entry : Identifier) (id : Int) (t : Session) : Prop where
  tree : t.tree = s.tree
  journal : t.journal = s.journal
  spellings : t.spellings = s.spellings
  types : t.types = s.types
  identifiers : t.identifiers = s.identifiers
  scopeStart : t.scopeStart = s.scopeStart
  strings : t.strings = s.strings
  functions : t.functions = if entry.kind = .function then s.functions.push 0 else s.functions
  main : t.main = if entry.kind = .function ∧
    s.isEntryName entry.spelling = true then id else s.main

theorem place_ok (entry : Identifier) (id : Int)
    (sized : entry.kind = .variable → ∃ n, s.types.sizeOf entry.type = .ok n) :
    ∃ t cell, s.place entry id = .ok (t, { entry with displacement := cell }) ∧
    s.Placed entry id t := by
  unfold place
  split
  next kind =>
    obtain ⟨n, size⟩ := sized kind
    refine ⟨(s.allocate n).1, (s.allocate n).2, by rw [size]; rfl, ?_⟩
    unfold allocate
    split <;> exact ⟨rfl, rfl, rfl, rfl, rfl, rfl, rfl, by simp [kind], by simp [kind]⟩
  next kind =>
    refine ⟨_, _, rfl, rfl, rfl, rfl, rfl, rfl, rfl, rfl, by simp [kind], ?_⟩
    simp [kind]
  next notFunction =>
    refine ⟨s, entry.displacement, rfl, rfl, rfl, rfl, rfl, rfl, rfl, rfl,
      (if_neg notFunction).symm, ?_⟩
    exact (if_neg fun both => notFunction both.1).symm

/-- The declaration is the entry point of the program, and there is one already. -/
def SecondMain (s : Session) (spelling : Int) (kind : IdentKind) : Prop :=
  kind = .function ∧ s.isEntryName spelling = true ∧ s.main ≠ 0

/-- A session can take in a declaration: the spelling is stored, and the cells of a variable can be
counted. -/
structure Takes (s : Session) (spelling : Int) (kind : IdentKind) (type : TypeId) : Prop where
  known : s.spellings.has spelling = true
  sized : kind = .variable → ∃ n, s.types.sizeOf type = .ok n

theorem declaration_of_cell (known : s.spellings.has spelling = true) :
    ∃ cell, cellAt s.spellings.entries spelling = .ok cell ∧
    cell.declaration = s.lookup spelling := by
  obtain ⟨low, high⟩ := Spellings.has_iff.1 known
  have inside : spelling.toNat < s.spellings.entries.size := by omega
  refine ⟨_, cellAt_of_lt (by omega) (Array.getElem?_eq_getElem inside), ?_⟩
  simp [lookup, Spellings.declaration, known, inside]

/-- A second entry point is refused. -/
theorem declare_secondMain (known : s.spellings.has spelling = true)
    (second : s.SecondMain spelling kind) :
    s.declare spelling kind type = .ok (.error .mainRedefined) := by
  obtain ⟨cell, found, _⟩ := declaration_of_cell known
  obtain ⟨rfl, entryName, there⟩ := second
  simp [declare, found, entryName, there, bind, Except.bind, pure, Except.pure]

/-- A spelling that the innermost block declares is refused. -/
theorem declare_again (known : s.spellings.has spelling = true) (visible : kind ≠ .label)
    (only : ¬ s.SecondMain spelling kind) (again : s.inCurrentScope (s.lookup spelling) = true) :
    s.declare spelling kind type = .ok (.error .redeclared) := by
  obtain ⟨cell, found, shown⟩ := declaration_of_cell known
  have first : (kind == .function && s.isEntryName spelling && s.main != 0) = false := by
    simpa [SecondMain, and_assoc] using only
  simp only [inCurrentScope, Bool.and_eq_true, bne_iff_ne, decide_eq_true_eq] at again
  simp [declare, found, shown, visible, first, again, bind, Except.bind, pure, Except.pure]

/-- A declaration that is taken in stands behind the others and is visible from now on. -/
theorem declare_new (takes : s.Takes spelling kind type) (visible : kind ≠ .label)
    (only : ¬ s.SecondMain spelling kind) (new : s.inCurrentScope (s.lookup spelling) = false) :
    ∃ t cell, s.Placed ⟨s.lookup spelling, spelling, type, kind, 0, false⟩ s.identifiers.size t ∧
      s.declare spelling kind type = .ok (.ok
        ({ t with
          identifiers := s.identifiers.push ⟨s.lookup spelling, spelling, type, kind, cell, false⟩
          spellings := s.spellings.shown spelling s.identifiers.size }, s.identifiers.size)) := by
  obtain ⟨cell, found, shown⟩ := declaration_of_cell takes.known
  have first : (kind == .function && s.isEntryName spelling && s.main != 0) = false := by
    simpa [SecondMain, and_assoc] using only
  have second : (s.lookup spelling != 0 && decide (s.scopeStart ≤ s.lookup spelling)) = false := new
  obtain ⟨t, place, placed, ok⟩ := place_ok (s := s) ⟨s.lookup spelling, spelling, type, kind, 0,
    false⟩ s.identifiers.size takes.sized
  refine ⟨t, place, ok, ?_⟩
  have set : t.spellings.setDeclaration spelling s.identifiers.size =
      .ok (s.spellings.shown spelling s.identifiers.size) := by
    rw [ok.spellings]
    exact Spellings.setDeclaration_of_has takes.known _
  have hidden : (kind == IdentKind.label) = false := by simpa using visible
  unfold declare
  simp only [hidden, found, shown, first, second, placed, bind, Except.bind, pure, Except.pure,
    Bool.false_eq_true, if_false, setDeclaration, set, ok.identifiers]

theorem declare_label (s : Session) (spelling : Int) (type : TypeId) :
    s.declare spelling .label type = .ok (.ok ({ s with
      identifiers := s.identifiers.push ⟨0, spelling, type, .label, 0, false⟩ },
      s.identifiers.size)) :=
  rfl

/-! ## Hiding declarations -/

/-- What spellings stand for after some declarations were hidden, in the order of the list. -/
def undo : List Identifier → (Int → Int) → Int → Int
  | [], shown => shown
  | e :: rest, shown =>
    undo rest (if e.kind = .label then shown else Function.update shown e.spelling e.previous)

theorem undo_append (l m : List Identifier) (shown : Int → Int) :
    undo (l ++ m) shown = undo m (undo l shown) := by
  induction l generalizing shown with
  | nil => rfl
  | cons e l ih => exact ih _

/-- Hiding declarations sets a spelling to one value, whatever it stood for, or leaves it alone. -/
theorem undo_const_or_keep (l : List Identifier) (k : Int) :
    (∃ v, ∀ shown, undo l shown k = v) ∨ ∀ shown, undo l shown k = shown k := by
  induction l with
  | nil => exact .inr fun _ => rfl
  | cons e l ih =>
    obtain ⟨v, const⟩ | keep := ih
    · exact .inl ⟨v, fun shown => const _⟩
    · by_cases other : e.kind = .label ∨ k ≠ e.spelling
      · refine .inr fun shown => (keep _).trans ?_
        split
        · rfl
        · next visible => exact Function.update_of_ne (other.resolve_left visible) _ _
      · obtain ⟨visible, rfl⟩ := by simpa using other
        refine .inl ⟨e.previous, fun shown => (keep _).trans ?_⟩
        rw [if_neg visible, Function.update_self]

/-- Hiding declarations twice is hiding them once. -/
theorem undo_undo (l : List Identifier) (shown : Int → Int) :
    undo l (undo l shown) = undo l shown := by
  funext k
  obtain ⟨v, const⟩ | keep := undo_const_or_keep l k
  · rw [const, const]
  · rw [keep]

theorem hideAll_ok {entries : List Identifier}
    (known : ∀ e ∈ entries, e.kind ≠ .label → s.spellings.has e.spelling = true) :
    ∃ p, s.hideAll entries = .ok { s with spellings := p } ∧ p.declaration = undo entries s.lookup ∧
      (∀ k, p.has k = s.spellings.has k) ∧ ∀ k, p.text k = s.spellings.text k := by
  induction entries generalizing s with
  | nil => exact ⟨s.spellings, rfl, rfl, fun _ => rfl, fun _ => rfl⟩
  | cons e rest ih =>
    have later {e' : Identifier} (mem : e' ∈ rest) := known e' (List.mem_cons_of_mem _ mem)
    by_cases label : e.kind = .label
    · obtain ⟨p, done, shown, same⟩ := ih fun e' mem => later mem
      refine ⟨p, ?_, ?_, same⟩
      · simpa [hideAll, label, bind, Except.bind, pure, Except.pure] using done
      · rw [shown, undo, if_pos label]
    · have there := known e List.mem_cons_self label
      obtain ⟨p, done, shown, has, text⟩ :=
        ih (s := { s with spellings := s.spellings.shown e.spelling e.previous })
        fun e' mem visible => by
          rw [Spellings.has_shown]
          exact later mem visible
      refine ⟨p, ?_, ?_, fun k => (has k).trans Spellings.has_shown,
        fun k => (text k).trans (Spellings.text_shown ..)⟩
      · have hidden : (e.kind == IdentKind.label) = false := by simpa using label
        simp only [hideAll, hidden, setDeclaration, Spellings.setDeclaration_of_has there, bind,
          Except.bind, pure, Except.pure, Bool.false_eq_true, if_false]
        exact done
      · rw [shown, undo, if_neg label]
        exact congrArg (undo rest) (Spellings.declaration_shown there _)

/-! ## The stack of scopes -/

/-- An open scope: whether it is the scope of a function, what was saved when it was opened, the
session in front of it, and its declarations as spellings and numbers, last one first. -/
structure OpenScope where
  isFunction : Bool
  saved : Scope
  before : Session
  declared : List (Int × Int)

/-- The declaration of a spelling in the innermost scope that declares it, or zero. -/
def innermost (spelling : Int) : List OpenScope → Int
  | [] => 0
  | scope :: outer => (scope.declared.lookup spelling).getD (innermost spelling outer)

/-- The scope after a declaration. A label belongs to no scope. -/
def OpenScope.add (scope : OpenScope) (spelling : Int) (kind : IdentKind) (id : Int) : OpenScope :=
  if kind = .label then scope else { scope with declared := (spelling, id) :: scope.declared }

/-- The sessions that well-nested calls reach from a session, with the stack of open scopes,
innermost first. The outermost scope is never closed. Types may be made between the calls. -/
inductive Reached (start : Session) : Session → List OpenScope → Prop
  | start : Reached start start [⟨false, ⟨0, 0⟩, start, []⟩]
  | intern {s : Session} {scopes : List OpenScope} (earlier : Reached start s scopes)
      (text : String) : Reached start (s.intern text).1 scopes
  | types {s : Session} {scopes : List OpenScope} (earlier : Reached start s scopes)
      (types : TypeTable) : Reached start { s with types } scopes
  | declare {s t : Session} {scope : OpenScope} {outer : List OpenScope} {spelling id : Int}
      {kind : IdentKind} {type : TypeId} (earlier : Reached start s (scope :: outer))
      (takes : kind ≠ .label → s.Takes spelling kind type)
      (done : s.declare spelling kind type = .ok (.ok (t, id))) :
      Reached start t (scope.add spelling kind id :: outer)
  | enterBlock {s : Session} {scopes : List OpenScope} (earlier : Reached start s scopes) :
      Reached start s.enterBlock.1 (⟨false, s.enterBlock.2, s, []⟩ :: scopes)
  | exitBlock {s t : Session} {scope next : OpenScope} {outer : List OpenScope}
      (earlier : Reached start s (scope :: next :: outer)) (block : scope.isFunction = false)
      (done : s.exitBlock scope.saved = .ok t) : Reached start t (next :: outer)
  | enterFunction {s : Session} {scopes : List OpenScope} (earlier : Reached start s scopes) :
      Reached start s.enterFunction.1 (⟨true, s.enterFunction.2, s, []⟩ :: scopes)
  | exitFunction {s t : Session} {scope next : OpenScope} {outer : List OpenScope} {size : Int}
      (earlier : Reached start s (scope :: next :: outer)) (function : scope.isFunction = true)
      (done : s.exitFunction scope.saved = .ok (t, size)) : Reached start t (next :: outer)

/-! ## The invariant -/

/-- What ties a scope to the declarations of a session, of which those from `start` on were made
since the scope was opened, and to what the spellings stand for. -/
structure Tie (ids : List Identifier) (start : Int) (shown : Int → Int)
    (scope : OpenScope) : Prop where
  low : 0 < start
  high : start ≤ ids.length
  own : ∀ d ∈ scope.declared, start ≤ d.2 ∧ d.2 < ids.length
  shows : ∀ k, shown k = (scope.declared.lookup k).getD (scope.before.lookup k)
  older : ∀ k, scope.before.lookup k < start
  undone : undo (ids.drop start.toNat).reverse shown = scope.before.lookup

/-- Every scope of a stack is tied to the declarations that were there when the next inner scope was
opened. -/
inductive Tied : List Identifier → Int → (Int → Int) → List OpenScope → Prop
  | outermost {ids : List Identifier} {start : Int} {shown : Int → Int} {scope : OpenScope}
      (tie : Tie ids start shown scope) (bare : ∀ k, scope.before.lookup k = 0) :
      Tied ids start shown [scope]
  | inner {ids : List Identifier} {start : Int} {shown : Int → Int}
      {scope : OpenScope} {outer : List OpenScope} (tie : Tie ids start shown scope)
      (rest : Tied (ids.take start.toNat) scope.saved.start scope.before.lookup outer) :
      Tied ids start shown (scope :: outer)

/-- A program entry point was declared. -/
def HasMain (s : Session) : Prop :=
  ∃ e ∈ s.identifiers.toList, e.kind = .function ∧ s.isEntryName e.spelling = true

/-- Every declaration that is no label has a stored spelling, and the session knows whether there is
an entry point. The first entry of the table is not a declaration. -/
structure Named (s : Session) : Prop where
  spelled : ∀ e ∈ s.identifiers.toList.drop 1, e.kind ≠ .label → s.spellings.has e.spelling = true
  first : ∀ e ∈ s.identifiers.toList.head?, e.kind = .variable
  main : s.main ≠ 0 ↔ s.HasMain

/-- The invariant of all calls. -/
structure Follows (s : Session) (scopes : List OpenScope) : Prop where
  tied : Tied s.identifiers.toList s.scopeStart s.lookup scopes
  named : s.Named

section Ties

variable {ids : List Identifier} {start : Int} {shown : Int → Int} {scope : OpenScope}
    {scopes outer : List OpenScope}

theorem Tied.head (tied : Tied ids start shown (scope :: outer)) : Tie ids start shown scope := by
  cases tied with
  | outermost tie => exact tie
  | inner tie => exact tie

/-- A declaration that a scope looks up is one of its own. -/
theorem mem_of_lookup {declared : List (Int × Int)} {k id : Int}
    (found : declared.lookup k = some id) : (k, id) ∈ declared := by
  obtain ⟨before, after, rfl, _⟩ := List.lookup_eq_some_iff.mp found
  simp

/-- What a spelling stands for was declared already. -/
theorem Tie.below (tie : Tie ids start shown scope) (k : Int) : shown k < ids.length := by
  rw [tie.shows]
  cases found : scope.declared.lookup k with
  | none => exact Int.lt_of_lt_of_le (tie.older k) tie.high
  | some id => exact (tie.own _ (mem_of_lookup found)).2

/-- What a spelling stands for is its declaration in the innermost scope. -/
theorem Tied.shows (tied : Tied ids start shown scopes) (k : Int) :
    shown k = innermost k scopes := by
  induction tied with
  | outermost tie bare => rw [tie.shows, bare, innermost, innermost]
  | inner tie _ ih => rw [tie.shows, ih, innermost]

/-- Declarations behind those of a scope that are hidden already do not matter. -/
theorem Tied.extend {n : Nat} (tied : Tied (ids.take n) start shown scopes)
    (hidden : undo (ids.drop n).reverse shown = shown) : Tied ids start shown scopes := by
  have parts (low : start.toNat ≤ (ids.take n).length) : undo (ids.drop start.toNat).reverse shown =
      undo ((ids.take n).drop start.toNat).reverse shown := by
    have split : ids.drop start.toNat = (ids.take n).drop start.toNat ++ ids.drop n := by
      rw [← List.drop_append_of_le_length low, List.take_append_drop]
    rw [split, List.reverse_append, undo_append, hidden]
  have whole {scope : OpenScope} (tie : Tie (ids.take n) start shown scope) :
    Tie ids start shown scope := by
    have low := tie.low
    have high := tie.high
    have less : (ids.take n).length ≤ ids.length := List.length_take_le' n ids
    exact ⟨low, by omega, fun d mem => ⟨(tie.own d mem).1, by have := (tie.own d mem).2; omega⟩,
      tie.shows, tie.older, (parts (by omega)).trans tie.undone⟩
  cases tied with
  | outermost tie bare => exact .outermost (whole tie) bare
  | inner tie rest =>
    refine .inner (whole tie) ?_
    have high := tie.high
    have low := tie.low
    rw [List.take_take, Nat.min_eq_left] at rest
    · exact rest
    · simp only [List.length_take] at high
      omega

@[simp] theorem saved_add (scope : OpenScope) (spelling : Int) (kind : IdentKind) (id : Int) :
    (scope.add spelling kind id).saved = scope.saved := by
  unfold OpenScope.add
  split <;> rfl

@[simp] theorem before_add (scope : OpenScope) (spelling : Int) (kind : IdentKind) (id : Int) :
    (scope.add spelling kind id).before = scope.before := by
  unfold OpenScope.add
  split <;> rfl

/-- What spellings stand for after a declaration. -/
def showing (shown : Int → Int) (spelling : Int) (kind : IdentKind) (id : Int) : Int → Int :=
  if kind = .label then shown else Function.update shown spelling id

/-- A declaration that remembers what its spelling stood for can be undone. -/
theorem Tie.push (tie : Tie ids start shown scope) (e : Identifier)
    (hides : e.kind ≠ .label → e.previous = shown e.spelling) : Tie (ids ++ [e]) start
    (showing shown e.spelling e.kind ids.length) (scope.add e.spelling e.kind ids.length) := by
  have low := tie.low
  have high := tie.high
  have longer : (ids ++ [e]).length = ids.length + 1 := by simp
  have dropped : (ids ++ [e]).drop start.toNat = ids.drop start.toNat ++ [e] :=
    List.drop_append_of_le_length (by omega)
  by_cases label : e.kind = .label
  · simp only [showing, OpenScope.add, label, if_true]
    refine ⟨low, by omega, fun d mem => ?_, tie.shows, tie.older, ?_⟩
    · have := tie.own d mem
      omega
    · rw [dropped, List.reverse_append, undo_append, List.reverse_singleton, undo,
        if_pos label, undo]
      exact tie.undone
  · simp only [showing, OpenScope.add, label, if_false]
    refine ⟨low, by omega, ?_, ?_, tie.older, ?_⟩
    · intro d mem
      rcases List.mem_cons.mp mem with rfl | older
      · simp only
        omega
      · have := tie.own d older
        omega
    · intro k
      by_cases same : k = e.spelling
      · rw [same, Function.update_self, List.lookup_cons_self, Option.getD_some]
      · have other : (k == e.spelling) = false := by simpa using same
        rw [Function.update_of_ne same, List.lookup_cons, other, tie.shows]
    · rw [dropped, List.reverse_append, undo_append, List.reverse_singleton, undo, if_neg label,
        undo, Function.update_idem, hides label, Function.update_eq_self]
      exact tie.undone

theorem Tied.push (tied : Tied ids start shown (scope :: outer)) (e : Identifier)
    (hides : e.kind ≠ .label → e.previous = shown e.spelling) :
    Tied (ids ++ [e]) start (showing shown e.spelling e.kind ids.length)
      (scope.add e.spelling e.kind ids.length :: outer) := by
  cases tied with
  | outermost tie bare => exact .outermost (tie.push e hides) (by simpa using bare)
  | inner tie rest =>
    have low := tie.low
    have high := tie.high
    refine .inner (tie.push e hides) ?_
    rw [saved_add, before_add, List.take_append_of_le_length (by omega)]
    exact rest

end Ties

/-! ## The calls keep the invariant -/

section Calls

variable {scope next : OpenScope} {scopes outer : List OpenScope}

theorem follows_new (rootType : Int) (journal : Journal) :
    (new rootType journal).Follows [⟨false, ⟨0, 0⟩, new rootType journal, []⟩] := by
  have bare (k : Int) : (new rootType journal).lookup k = 0 := by
    refine if_neg fun there => ?_
    obtain ⟨low, high⟩ := Spellings.has_iff.1 there
    have single : (new rootType journal).spellings.entries.size = 1 := rfl
    omega
  refine ⟨.outermost ⟨Int.one_pos, Int.le_refl _, nofun, fun k => rfl, fun k => ?_, rfl⟩ bare,
    nofun, ?_, ?_⟩
  · rw [bare]
    exact Int.one_pos
  · rintro e ⟨⟩
    rfl
  · simp [new, HasMain, Identifier.none]

theorem isEntryName_congr {k : Int} (same : t.spellings.text k = s.spellings.text k) :
    t.isEntryName k = s.isEntryName k := by
  rw [isEntryName, isEntryName, spellingText, spellingText, same]

/-- A function is a declaration with a stored spelling. -/
theorem Named.known (named : s.Named) {e : Identifier} (mem : e ∈ s.identifiers.toList)
    (kind : e.kind = .function) : s.spellings.has e.spelling = true := by
  refine named.spelled e ?_ (by simp [kind])
  cases all : s.identifiers.toList with
  | nil => simp [all] at mem
  | cons first rest =>
    rw [all] at mem
    rcases List.mem_cons.mp mem with rfl | later
    · have := named.first e (by simp [all])
      simp [kind] at this
    · exact later

/-- Spellings that are stored may stand for something else, and others may be added. -/
theorem Named.congr (named : s.Named) (identifiers : t.identifiers = s.identifiers)
    (main : t.main = s.main) (kept : ∀ k, s.spellings.has k = true → t.spellings.has k = true ∧
      t.spellings.text k = s.spellings.text k) : t.Named where
  spelled e mem visible := (kept _ (named.spelled e (identifiers ▸ mem) visible)).1
  first := by
    rw [identifiers]
    exact named.first
  main := by
    rw [main, named.main, HasMain, HasMain, identifiers]
    refine exists_congr fun e => and_congr_right fun mem => and_congr_right fun function => ?_
    rw [isEntryName_congr (kept _ (named.known mem function)).2]

theorem Follows.intern (follows : s.Follows scopes) (text : String) :
    (s.intern text).1.Follows scopes where
  tied := by
    have shown : (s.intern text).1.lookup = s.lookup := s.spellings.declaration_intern text
    rw [shown]
    exact follows.tied
  named := follows.named.congr rfl rfl fun _ known =>
    ⟨Spellings.has_intern text known, Spellings.text_intern text known⟩

theorem Follows.head (follows : s.Follows (scope :: outer)) :
    Tie s.identifiers.toList s.scopeStart s.lookup scope :=
  follows.tied.head

theorem Follows.enter (follows : s.Follows (scope :: outer)) (isFunction : Bool) :
    s.enterBlock.1.Follows (⟨isFunction, s.enterBlock.2, s, []⟩ :: scope :: outer) where
  tied := by
    have low := follows.head.low
    have high := follows.head.high
    have all : ((s.identifiers.size : Int)).toNat = s.identifiers.toList.length := by simp
    refine .inner ⟨?_, ?_, nofun, fun k => rfl, fun k => ?_, ?_⟩ ?_
    · simp only [enterBlock, Array.length_toList] at high ⊢
      omega
    · simp [enterBlock]
    · simpa [enterBlock] using follows.head.below k
    · simp only [enterBlock, all, List.drop_length]
      rfl
    · simp only [enterBlock, all, List.take_length]
      exact follows.tied
  named := follows.named.congr rfl rfl fun _ known => ⟨known, rfl⟩

/-- Closing a scope succeeds and gives every spelling back what it stood for. -/
theorem Follows.exit (follows : s.Follows (scope :: next :: outer)) :
    ∃ t, s.exitBlock scope.saved = .ok t ∧ t.Follows (next :: outer) ∧
    t.lookup = scope.before.lookup := by
  have tie := follows.head
  have known : ∀ e ∈ (s.identifiers.toList.drop s.scopeStart.toNat).reverse, e.kind ≠ .label →
      s.spellings.has e.spelling = true := fun e mem => by
    have low := tie.low
    have later : 1 + (s.scopeStart.toNat - 1) = s.scopeStart.toNat := by omega
    refine follows.named.spelled e (List.mem_of_mem_drop (i := s.scopeStart.toNat - 1) ?_)
    rw [List.drop_drop, later]
    exact List.mem_reverse.mp mem
  obtain ⟨p, hidden, shown, has, text⟩ := hideAll_ok known
  have back : p.declaration = scope.before.lookup := shown.trans tie.undone
  refine ⟨{ s with
    spellings := p
    scopeStart := scope.saved.start
    displacement := scope.saved.displacement }, ?_, ⟨?_, ?_⟩, back⟩
  · rw [exitBlock, hidden]
    rfl
  · cases follows.tied with
    | inner _ rest =>
      have still : undo (s.identifiers.toList.drop s.scopeStart.toNat).reverse scope.before.lookup =
          scope.before.lookup := by
        rw [← tie.undone, undo_undo]
      have tied := rest.extend still
      rwa [← back] at tied
  · exact follows.named.congr rfl rfl fun k known => ⟨(has k).trans known, text k⟩

/-- The names are known after a declaration. -/
theorem Named.push (named : s.Named) {e : Identifier}
    (identifiers : t.identifiers = s.identifiers.push e)
    (some : 0 < s.identifiers.size) (known : e.kind ≠ .label → s.spellings.has e.spelling = true)
    (kept : ∀ k, s.spellings.has k = true → t.spellings.has k = true ∧
      t.spellings.text k = s.spellings.text k) (main : t.main = if e.kind = .function ∧
      s.isEntryName e.spelling = true then (s.identifiers.size : Int)
      else s.main) :
    t.Named where
  spelled e' mem visible := by
    rw [identifiers, Array.toList_push,
      List.drop_append_of_le_length (by simpa using Nat.succ_le_of_lt some)] at mem
    rcases List.mem_append.mp mem with old | new
    · exact (kept _ (named.spelled e' old visible)).1
    · obtain rfl := List.mem_singleton.mp new
      exact (kept _ (known visible)).1
  first e' mem := by
    have filled : s.identifiers.toList ≠ [] := fun none => by
      rw [← Array.length_toList, none] at some
      exact absurd some (Nat.lt_irrefl 0)
    rw [identifiers, Array.toList_push, List.head?_append_of_ne_nil _ filled] at mem
    exact named.first e' mem
  main := by
    have same (e' : Identifier) (mem : e' ∈ s.identifiers.toList ++ [e]) (function : e'.kind =
        .function) : t.isEntryName e'.spelling = s.isEntryName e'.spelling := by
      refine isEntryName_congr (kept _ ?_).2
      rcases List.mem_append.mp mem with old | new
      · exact named.known old function
      · obtain rfl := List.mem_singleton.mp new
        exact known (by simp [function])
    -- the program has an entry point from now on if it had one or the new declaration is one
    have has : t.HasMain ↔ s.HasMain ∨ e.kind = .function ∧ s.isEntryName e.spelling = true := by
      rw [HasMain, identifiers, Array.toList_push]
      constructor
      · rintro ⟨e', mem, function, entry⟩
        rw [same e' mem function] at entry
        rcases List.mem_append.mp mem with old | new
        · exact .inl ⟨e', old, function, entry⟩
        · obtain rfl := List.mem_singleton.mp new
          exact .inr ⟨function, entry⟩
      · rintro (⟨e', old, function, entry⟩ | ⟨function, entry⟩)
        · have mem := List.mem_append_left [e] old
          exact ⟨e', mem, function, (same e' mem function).trans entry⟩
        · have mem : e ∈ s.identifiers.toList ++ [e] :=
            List.mem_append_right _ (List.mem_singleton_self e)
          exact ⟨e, mem, function, (same e mem function).trans entry⟩
    rw [main, has, ← named.main]
    split
    · next both =>
      have pos : (s.identifiers.size : Int) ≠ 0 := by omega
      exact iff_of_true pos (.inr both)
    · next other => exact (or_iff_left other).symm

/-- A declaration that is taken in belongs to the innermost scope. -/
theorem Follows.declare (follows : s.Follows (scope :: outer)) {id : Int}
    (takes : kind ≠ .label → s.Takes spelling kind type)
    (done : s.declare spelling kind type = .ok (.ok (t, id))) :
    t.Follows (scope.add spelling kind id :: outer) := by
  have low := follows.head.low
  have high := follows.head.high
  have some : 0 < s.identifiers.size := by
    rw [Array.length_toList] at high
    omega
  by_cases label : kind = .label
  · subst label
    rw [declare_label] at done
    cases done
    have tied := follows.tied.push ⟨0, spelling, type, .label, 0, false⟩ (by simp)
    refine ⟨?_, follows.named.push rfl some (by simp) (fun _ known => ⟨known, rfl⟩) (by simp)⟩
    simp only [showing, if_true, Array.length_toList] at tied
    rw [← Array.toList_push] at tied
    exact tied
  · have known := (takes label).known
    have only : ¬ s.SecondMain spelling kind := fun second => by
      rw [declare_secondMain known second] at done
      cases done
    have new : s.inCurrentScope (s.lookup spelling) = false := by
      by_contra again
      rw [declare_again known label only (by simpa using again)] at done
      cases done
    obtain ⟨u, cell, placed, made⟩ := declare_new (takes label) label only new
    rw [made] at done
    cases done
    have tied :=
      follows.tied.push ⟨s.lookup spelling, spelling, type, kind, cell, false⟩ fun _ => rfl
    refine ⟨?_, follows.named.push rfl some (fun _ => known) (fun k there => ⟨?_, ?_⟩) placed.main⟩
    · have shown : Spellings.declaration (s.spellings.shown spelling s.identifiers.size) =
          showing s.lookup spelling kind s.identifiers.toList.length := by
        rw [Spellings.declaration_shown known, showing, if_neg label, Array.length_toList]
        rfl
      rw [← shown, Array.length_toList] at tied
      rw [← placed.scopeStart, ← Array.toList_push] at tied
      exact tied
    · exact Spellings.has_shown.trans there
    · exact Spellings.text_shown ..

end Calls

/-! ## Sequences of calls -/

section Sequences

variable {scope : OpenScope} {scopes outer : List OpenScope} {start : Session}

/-- Every sequence of calls keeps the invariant, and the stack always has its outermost scope. -/
theorem Reached.follows (reached : Reached start s scopes)
    (fresh : start.Follows [⟨false, ⟨0, 0⟩, start, []⟩]) : scopes ≠ [] ∧ s.Follows scopes := by
  induction reached with
  | start => exact ⟨by simp, fresh⟩
  | intern _ text ih => exact ⟨ih.1, ih.2.intern text⟩
  | types _ table ih =>
    exact ⟨ih.1, ih.2.tied, ih.2.named.congr rfl rfl fun _ known => ⟨known, rfl⟩⟩
  | declare _ takes done ih => exact ⟨by simp, ih.2.declare takes done⟩
  | @enterBlock s scopes _ ih =>
    obtain ⟨scope, outer, rfl⟩ := List.exists_cons_of_ne_nil ih.1
    exact ⟨by simp, ih.2.enter false⟩
  | exitBlock _ _ done ih =>
    obtain ⟨t, closed, follows, _⟩ := ih.2.exit
    cases closed.symm.trans done
    exact ⟨by simp, follows⟩
  | @enterFunction s scopes _ ih =>
    obtain ⟨scope, outer, rfl⟩ := List.exists_cons_of_ne_nil ih.1
    have entered := ih.2.enter true
    exact ⟨by simp, entered.tied, entered.named.congr rfl rfl fun _ known => ⟨known, rfl⟩⟩
  | exitFunction _ _ done ih =>
    obtain ⟨t, closed, follows, _⟩ := ih.2.exit
    rw [Session.exitFunction, closed] at done
    cases done
    exact ⟨by simp, follows.tied, follows.named.congr rfl rfl fun _ known => ⟨known, rfl⟩⟩

/-- The declaration that a spelling stands for belongs to the innermost scope if and only if this
scope declares the spelling. -/
theorem Tie.inCurrentScope_iff (tie : Tie s.identifiers.toList s.scopeStart s.lookup scope)
    (k : Int) : s.inCurrentScope (s.lookup k) = true ↔ ∃ id, (k, id) ∈ scope.declared := by
  have low := tie.low
  simp only [inCurrentScope, Bool.and_eq_true, bne_iff_ne, decide_eq_true_eq]
  constructor
  · rintro ⟨_, here⟩
    cases found : scope.declared.lookup k with
    | none =>
      have older := tie.older k
      rw [tie.shows, found] at here
      simp only [Option.getD_none] at here
      omega
    | some id => exact ⟨id, mem_of_lookup found⟩
  · rintro ⟨id, mem⟩
    have found : (scope.declared.lookup k).isSome = true := by
      cases missing : scope.declared.lookup k with
      | none =>
        have other := List.lookup_eq_none_iff.mp missing (k, id) mem
        simp at other
      | some _ => rfl
    obtain ⟨id', there⟩ := Option.isSome_iff_exists.mp found
    have own := tie.own _ (mem_of_lookup there)
    rw [tie.shows, there, Option.getD_some]
    simp only at own
    exact ⟨by omega, own.1⟩

/-- A refused declaration changes nothing. -/
theorem declare_refused {c : Checker} {e : DeclarationError}
    (answer : c.session.declare spelling kind type = .ok (.error e)) :
    (Checker.declare spelling kind type).run c = .ok (.error e, c) := by
  simp only [Checker.declare, Checker.currentSession, StateT.run, bind, StateT.bind, get, getThe,
    MonadStateOf.get, StateT.get, pure, StateT.pure, Except.pure, Except.bind, liftM, monadLift,
    MonadLift.monadLift, StateT.lift, answer]

/-- A declaration of a visible kind is always answered: it is refused as a second entry point, or
else as a second declaration in its scope, and otherwise taken in. -/
theorem Follows.answer (follows : s.Follows (scope :: outer)) (visible : kind ≠ .label)
    (takes : s.Takes spelling kind type) : ∃ answer, s.declare spelling kind type = .ok answer ∧
    (answer = .error .mainRedefined ↔ kind = .function ∧ s.isEntryName spelling = true ∧
      s.HasMain) ∧ (answer = .error .redeclared ↔ ¬ (kind = .function ∧
      s.isEntryName spelling = true ∧ s.HasMain) ∧ ∃ id, (spelling, id) ∈ scope.declared) := by
  rw [← follows.named.main, ← follows.head.inCurrentScope_iff]
  by_cases second : s.SecondMain spelling kind
  · exact ⟨_, declare_secondMain takes.known second, iff_of_true rfl second,
      iff_of_false (by simp) fun both => both.1 second⟩
  by_cases again : s.inCurrentScope (s.lookup spelling) = true
  · exact ⟨_, declare_again takes.known visible second again, iff_of_false (by simp) second,
      iff_of_true rfl ⟨second, again⟩⟩
  · obtain ⟨t, cell, _, made⟩ := declare_new takes visible second (by simpa using again)
    exact ⟨_, made, iff_of_false (by simp) second, iff_of_false (by simp) fun both => again both.2⟩

/-- A session after well-nested calls is a stack of scopes: a spelling stands for its declaration in
the innermost scope that has one; closing a scope brings back what the spellings stood for when it
was opened; a label shows nothing; a declaration is refused as a second entry point or as a second
declaration in the innermost scope, for no other reason, and then changes nothing. -/
theorem reached_scopes {rootType : Int} {journal : Journal}
    (reached : Reached (new rootType journal) s (scope :: outer)) :
    (∀ k, s.lookup k = innermost k (scope :: outer)) ∧
    (outer ≠ [] → ∃ t, s.exitBlock scope.saved = .ok t ∧ ∀ k, t.lookup k = scope.before.lookup k) ∧
    (outer ≠ [] → ∃ t size, s.exitFunction scope.saved = .ok (t, size) ∧
      ∀ k, t.lookup k = scope.before.lookup k) ∧
    (∀ spelling type, ∃ t id, s.declare spelling .label type = .ok (.ok (t, id)) ∧ ∀ k, t.lookup k =
      s.lookup k) ∧ ∀ spelling kind type, kind ≠ .label → s.Takes spelling kind type →
    ∃ answer, s.declare spelling kind type = .ok answer ∧ (answer = .error .mainRedefined ↔
      kind = .function ∧ s.isEntryName spelling = true ∧ s.HasMain) ∧ (answer = .error .redeclared ↔
      ¬ (kind = .function ∧ s.isEntryName spelling = true ∧ s.HasMain) ∧
      ∃ id, (spelling, id) ∈ scope.declared) ∧
    ∀ e (c : Checker), c.session = s → answer = .error e →
    (Checker.declare spelling kind type).run c = .ok (.error e, c) := by
  obtain ⟨_, follows⟩ := reached.follows (follows_new rootType journal)
  have closes (inner : outer ≠ []) : ∃ t, s.exitBlock scope.saved = .ok t ∧
    t.lookup = scope.before.lookup := by
    obtain ⟨next, outer, rfl⟩ := List.exists_cons_of_ne_nil inner
    obtain ⟨t, closed, _, back⟩ := follows.exit
    exact ⟨t, closed, back⟩
  refine ⟨follows.tied.shows, ?_, ?_, ?_, ?_⟩
  · intro inner
    obtain ⟨t, closed, back⟩ := closes inner
    exact ⟨t, closed, congrFun back⟩
  · intro inner
    obtain ⟨t, closed, back⟩ := closes inner
    refine ⟨{ t with isLocal := false }, s.maxDisplacement, ?_, congrFun back⟩
    rw [exitFunction, closed]
    rfl
  · intro spelling type
    exact ⟨_, _, s.declare_label spelling type, fun k => rfl⟩
  · intro spelling kind type visible takes
    obtain ⟨answer, made, second, again⟩ := follows.answer visible takes
    refine ⟨answer, made, second, again, fun e c same refused => ?_⟩
    subst same refused
    exact declare_refused made

/-- A block inside of a function shadows the parameter `x`, and the parameter is back behind the
block. -/
theorem reached_scopes_shadow :
    ∃ s scope outer, Reached (new 0 (.new none true)) s (scope :: outer) ∧ s.lookup 1 = 2 ∧
      ∃ t, s.exitBlock scope.saved = .ok t ∧ t.lookup 1 = 1 := by
  -- in the function, with the spelling `x` stored, the parameter is taken in
  have first : Reached (new 0 (.new none true)) _ _ := .start
  have opened := (first.intern "x").enterFunction
  obtain ⟨s, same⟩ : ∃ s, s = ((new 0 (.new none true)).intern "x").1.enterFunction.1 := ⟨_, rfl⟩
  rw [← same] at opened
  have known : s.spellings.has 1 = true := same ▸ by decide +kernel
  have bare : s.inCurrentScope (s.lookup 1) = false := same ▸ by decide +kernel
  have size : s.identifiers.size = 1 := same ▸ by decide +kernel
  have takes : s.Takes 1 .variable TypeId.int := ⟨known, fun _ => ⟨1, rfl⟩⟩
  obtain ⟨t, cell, placed, made⟩ := declare_new takes (by simp) (by simp [SecondMain]) bare
  have inside := (opened.declare (fun _ => takes) made).enterBlock
  -- in the block, `x` stands for the parameter and may be declared again
  have shown := (reached_scopes inside).1 1
  generalize inner : Session.enterBlock _ = block at inside shown
  have start : block.1.scopeStart = 2 := by
    rw [← inner]
    simp [enterBlock, size]
  have count : block.1.identifiers.size = 2 := by
    rw [← inner]
    simp [enterBlock, size]
  have older : block.1.lookup 1 = 1 := by
    rw [shown, size]
    rfl
  have again : block.1.Takes 1 .variable TypeId.int := by
    refine ⟨?_, fun _ => ⟨1, rfl⟩⟩
    rw [← inner]
    exact Spellings.has_shown.trans known
  obtain ⟨u, cell, _, remade⟩ := declare_new again (by simp) (by simp [SecondMain])
    (by simp [inCurrentScope, older, start])
  have final := inside.declare (fun _ => again) remade
  obtain ⟨lookups, closes, _⟩ := reached_scopes final
  obtain ⟨v, closed, back⟩ := closes (by simp)
  refine ⟨_, _, _, final, ?_, v, closed, ?_⟩
  · rw [lookups, count]
    rfl
  · have before := (reached_scopes (opened.declare (fun _ => takes) made)).1 1
    rw [back, before_add]
    refine before.trans ?_
    rw [size]
    rfl

end Sequences

end Session

end BilingualC
