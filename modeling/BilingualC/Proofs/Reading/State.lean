import Mathlib
import BilingualC.Proofs.Reading.Course
import BilingualC.Proofs.Total.Construction

/-!
# What waits while a program is read

While the program is read, tokens have been passed and trees wait under the root for the node that
takes them. `At` says what is known between two steps: the items on the stack, the newest first,
stand for the tokens and the trees in the order in which they were read, and for facts about the
tables. A broken node stands for no tree, but for an error.

As long as no error was reported the tokens and the trees lie in a row in front of the reader, no
other trees are under the root than those that were there before, and the trees are in order: their
expressions follow the typing rules, and their locations are nested.
-/

namespace BilingualC

open Guarded Rose Grammar

variable {ok : Fault → Prop}

namespace TypeTable

variable {t u : TypeTable} {x y : Rose}

/-- All expressions in a tree are operands. -/
def Tame (ok : Fault → Prop) (t : TypeTable) (x : Rose) : Prop :=
  ∀ y ∈ x.nodes, y.kind.isExpression = true → t.Operand ok y

theorem Operand.tame (operand : t.Operand ok x) : t.Tame ok x :=
  fun _ mem _ z inside => operand z (mem_nodes_trans inside mem)

theorem Tame.continue (tame : t.Tame ok x) (continues : t.Continues u) (tiled : u.Tiled) :
    u.Tame ok x :=
  fun y mem expression => (tame y mem expression).continue continues tiled

theorem tame_of_node (statement : x.kind.isExpression = false)
    (below : ∀ y ∈ x.children, t.Tame ok y) : t.Tame ok x := by
  intro y mem expression
  rw [nodes_eq, List.mem_cons, List.mem_flatMap] at mem
  rcases mem with rfl | ⟨z, child, inside⟩
  · rw [statement] at expression
    cases expression
  · exact below z child y inside expression

end TypeTable

namespace Session

variable {s t : Session} {names : NameEnds} {str : TypeId} {x : Rose}

/-- A node that is no expression follows the typing rules. -/
theorem rule_of_statement (statement : x.kind.isExpression = false) : s.Rule names str x := by
  unfold Rule
  split <;> first | exact statement | simp_all [Kind.isExpression]

theorem Ruled.later_tame (tame : s.types.Tame ok x) (onward : s.Later t) (tiled : t.types.Tiled)
    (ruled : s.Ruled names str x) : t.Ruled names str x := by
  intro y mem
  cases expression : y.kind.isExpression with
  | false => exact rule_of_statement expression
  | true =>
    have operand := tame y mem expression
    exact (ruled y mem).later operand.node (fun z child => (operand.child child).node) onward tiled

/-- A fact about the tables that stays true when they go on. -/
def Lasting (P : Session → Prop) : Prop := ∀ s t : Session, s.Later t → t.types.Tiled → P s → P t

theorem lasting_named (type : TypeId) : Lasting fun s => s.types.Named type :=
  fun _ _ later tiled named => named.continue later.grows.types tiled

end Session

namespace Checker

variable {c c' c₁ c₂ : Checker} {held xs ys : List Rose} {n : Handle} {x : Rose}

/-! ## Steps -/

/-- What a step leaves of a state, apart from the trees that it takes. -/
structure Moves (c : Checker) (held : List Rose) (c' : Checker) : Prop where
  later : c.session.Later c'.session
  string : c'.stringType = c.stringType
  errors : c.errors ≤ c'.errors
  library : c.session.Library → c'.session.Library
  keeps : c.session.tree.Keeps c'.session.tree held

theorem Moves.refl (c : Checker) (held : List Rose) : c.Moves held c :=
  ⟨.refl _, rfl, le_refl _, id, .refl _ _⟩

theorem Moves.trans (first : c.Moves held c₁) (second : c₁.Moves held c₂) : c.Moves held c₂ where
  later := first.later.trans second.later
  string := second.string.trans first.string
  errors := first.errors.trans second.errors
  library := second.library ∘ first.library
  keeps := fun r mem => (second.keeps r mem).trans (first.keeps r mem)

theorem Moves.sub (moves : c.Moves xs c') (fewer : ∀ x ∈ held, x ∈ xs) : c.Moves held c' :=
  ⟨moves.later, moves.string, moves.errors, moves.library, fun r mem => moves.keeps r (fewer r mem)⟩

theorem Onward.moves (onward : c.Onward c') (keeps : c.session.tree.Keeps c'.session.tree held) :
    c.Moves held c' := by
  obtain ⟨reports, adds⟩ := onward.reports
  exact ⟨onward.later, onward.stringType, by rw [errors, errors, adds.errorCount]; omega,
    .congr (congrArg (·.session.identifiers) onward.same), keeps⟩

/-! ## Trees in order -/

/-- The expressions of a tree are operands and follow the typing rules, and its locations are
nested. -/
structure InOrder (ok : Fault → Prop) (ruler : List Location) (names : Session.NameEnds)
    (c : Checker) (x : Rose) : Prop where
  tame : c.session.types.Tame ok x
  ruled : c.session.Ruled names c.stringType x
  nested : x.Nested ruler

theorem InOrder.moves {ruler : List Location}
    {names : Session.NameEnds} (order : c.InOrder ok ruler names x)
    (moves : c.Moves held c') (tiled : c'.session.types.Tiled) : c'.InOrder ok ruler names x :=
  ⟨order.tame.continue moves.later.grows.types tiled,
    by rw [moves.string]; exact order.ruled.later_tame order.tame moves.later tiled, order.nested⟩

end Checker

/-! ## Items -/

/-- What a step of the reader leaves behind. -/
inductive Pending where
  /-- A token that was passed. -/
  | token (loc : Location)
  /-- A node, which is an expression if it has to be one. -/
  | tree (expression : Bool) (n : Handle)
  /-- A fact about the tables. -/
  | known (P : Session → Prop)

namespace Pending

abbrev node (n : Handle) : Pending := .tree false n
abbrev value (n : Handle) : Pending := .tree true n

/-- The node of an item. -/
def handle? : Pending → Option Handle
  | .tree _ n => some n
  | _ => none

theorem filterMap_tree (expression : Bool) (n : Handle) (items : List Pending) :
    (Pending.tree expression n :: items).filterMap handle? = n :: items.filterMap handle? := rfl

/-- The nodes of some items in the order in which they were read. -/
def handles (items : List Pending) : List Handle := (items.filterMap handle?).reverse

/-- Nodes that wait, the last one on top. -/
def each (expression : Bool) (ns : List Handle) : List Pending :=
  (ns.map (Pending.tree expression)).reverse

@[simp] theorem handles_each (expression : Bool) (ns : List Handle) :
    handles (each expression ns) = ns := by
  simp [handles, each, List.filterMap_reverse, List.filterMap_map, Function.comp_def, handle?]

theorem each_cons (expression : Bool) (n : Handle) (ns : List Handle) (items : List Pending) :
    each expression (n :: ns) ++ items = each expression ns ++ .tree expression n :: items := by
  simp [each]

end Pending

open Pending

/-- The trees and the locations that items stand for. -/
inductive Stocks (ok : Fault → Prop) (c : Checker) : List Pending → List Rose → List Location → Prop
  | nil : Stocks ok c [] [] []
  | token {loc : Location} {items : List Pending} {xs : List Rose} {ls : List Location}
      (below : Stocks ok c items xs ls) : Stocks ok c (.token loc :: items) xs (loc :: ls)
  | known {P : Session → Prop} {items : List Pending} {xs : List Rose}
      {ls : List Location} (lasting : Session.Lasting P)
      (fact : P c.session) (below : Stocks ok c items xs ls) : Stocks ok c (.known P :: items) xs ls
  | broken {expression : Bool} {items : List Pending}
      {xs : List Rose} {ls : List Location} (error : c.errors ≠ 0)
      (below : Stocks ok c items xs ls) : Stocks ok c (.tree expression .broken :: items) xs ls
  | tree {expression : Bool} {n : Handle} {x : Rose} {items : List Pending}
      {xs : List Rose} {ls : List Location} (named : n = c.session.tree.handle x.index)
      (operand : expression = true → c.session.types.Operand ok x)
      (below : Stocks ok c items xs ls) :
      Stocks ok c (.tree expression n :: items) (x :: xs) (x.location :: ls)

namespace Stocks

variable {c c' : Checker} {items more : List Pending} {xs ys : List Rose} {ls ms : List Location}

theorem append (above : Stocks ok c more ys ms) (below : Stocks ok c items xs ls) :
    Stocks ok c (more ++ items) (ys ++ xs) (ms ++ ls) := by
  induction above with
  | nil => exact below
  | token _ ih => exact .token ih
  | known lasting fact _ ih => exact .known lasting fact ih
  | broken error _ ih => exact .broken error ih
  | tree named operand _ ih => exact .tree named operand ih

theorem split (stocks : Stocks ok c (more ++ items) xs ls) : ∃ ys zs ms ks, xs = ys ++ zs ∧
    ls = ms ++ ks ∧ Stocks ok c more ys ms ∧ Stocks ok c items zs ks := by
  induction more generalizing xs ls with
  | nil => exact ⟨[], xs, [], ls, rfl, rfl, .nil, stocks⟩
  | cons item more ih =>
    cases stocks with
    | token below =>
      obtain ⟨ys, zs, ms, ks, rfl, rfl, above, below⟩ := ih below
      exact ⟨ys, zs, _ :: ms, ks, rfl, rfl, .token above, below⟩
    | known lasting fact below =>
      obtain ⟨ys, zs, ms, ks, rfl, rfl, above, below⟩ := ih below
      exact ⟨ys, zs, ms, ks, rfl, rfl, .known lasting fact above, below⟩
    | broken error below =>
      obtain ⟨ys, zs, ms, ks, rfl, rfl, above, below⟩ := ih below
      exact ⟨ys, zs, ms, ks, rfl, rfl, .broken error above, below⟩
    | tree named operand below =>
      obtain ⟨ys, zs, ms, ks, rfl, rfl, above, below⟩ := ih below
      exact ⟨_ :: ys, zs, _ :: ms, ks, rfl, rfl, .tree named operand above, below⟩

theorem moves (stocks : Stocks ok c items xs ls) (moves : c.Moves xs c')
    (tiled : c'.session.types.Tiled) : Stocks ok c' items xs ls := by
  induction stocks with
  | nil => exact .nil
  | token _ ih => exact .token (ih moves)
  | known lasting fact _ ih => exact .known lasting (lasting _ _ moves.later tiled fact) (ih moves)
  | broken error _ ih =>
    have more := moves.errors
    exact .broken (by omega) (ih moves)
  | tree named operand _ ih =>
    refine .tree (named.trans (moves.keeps _ List.mem_cons_self).symm) (fun expression => ?_)
      (ih (moves.sub fun _ => List.mem_cons_of_mem _))
    exact (operand expression).continue moves.later.grows.types tiled

theorem nil_iff : Stocks ok c [] xs ls ↔ xs = [] ∧ ls = [] := by
  constructor
  · intro stocks
    cases stocks
    exact ⟨rfl, rfl⟩
  · rintro ⟨rfl, rfl⟩
    exact .nil

theorem token_iff {loc : Location} : Stocks ok c (.token loc :: items) xs ls ↔
    ∃ ms, ls = loc :: ms ∧ Stocks ok c items xs ms := by
  constructor
  · intro stocks
    cases stocks with
    | token below => exact ⟨_, rfl, below⟩
  · rintro ⟨ms, rfl, below⟩
    exact .token below

/-- Without an error a node stands for a tree. -/
theorem value_iff {n : Handle} (none : c.errors = 0) : Stocks ok c (.value n :: items) xs ls ↔
    ∃ x ys ms, xs = x :: ys ∧ ls = x.location :: ms ∧
    (n = c.session.tree.handle x.index ∧ c.session.types.Operand ok x) ∧
    Stocks ok c items ys ms := by
  constructor
  · intro stocks
    cases stocks with
    | broken error _ => exact absurd none error
    | tree named operand below => exact ⟨_, _, _, rfl, rfl, ⟨named, operand rfl⟩, below⟩
  · rintro ⟨x, ys, ms, rfl, rfl, ⟨named, operand⟩, below⟩
    exact .tree named (fun _ => operand) below

/-- The locations of the trees are among those of the items. -/
theorem locations (stocks : Stocks ok c items xs ls) : (xs.map Rose.location).Sublist ls := by
  induction stocks with
  | nil => exact .slnil
  | token _ ih => exact .cons _ ih
  | known _ _ _ ih => exact ih
  | broken _ _ ih => exact ih
  | tree _ _ _ ih => exact ih.cons_cons _

/-- Nodes that are not broken are those of the trees. -/
theorem filter_handles (stocks : Stocks ok c items xs ls)
    (live : ∀ x ∈ xs, c.session.tree.handle x.index ≠ .broken) :
    (handles items).filter (· ≠ .broken) = c.handles xs.reverse := by
  have onward : (items.filterMap handle?).filter (· ≠ .broken) = c.handles xs := by
    induction stocks with
    | nil => rfl
    | token _ ih => exact ih live
    | known _ _ _ ih => exact ih live
    | broken _ _ ih => exact ih live
    | tree named _ _ ih =>
      obtain ⟨first, others⟩ := List.forall_mem_cons.mp live
      subst named
      rw [filterMap_tree, List.filter_cons_of_pos (by simpa using first), ih others,
        Checker.handles, Checker.handles, List.map_cons]
  rw [handles, List.filter_reverse, onward, Checker.handles, Checker.handles, List.map_reverse]

/-- A node stands for a tree or for an error. -/
theorem node {n : Handle} (stocks : Stocks ok c items xs ls) (mem : n ∈ handles items) :
    (n = .broken ∧ c.errors ≠ 0) ∨ ∃ x ∈ xs, n = c.session.tree.handle x.index := by
  rw [handles, List.mem_reverse] at mem
  induction stocks with
  | nil => cases mem
  | token _ ih => exact ih mem
  | known _ _ _ ih => exact ih mem
  | broken error _ ih =>
    rw [filterMap_tree, List.mem_cons] at mem
    rcases mem with rfl | inside
    · exact .inl ⟨rfl, error⟩
    · exact ih inside
  | @tree _ n' x _ xs _ named _ _ ih =>
    rw [filterMap_tree, List.mem_cons] at mem
    rcases mem with rfl | inside
    · exact .inr ⟨x, List.mem_cons_self, named⟩
    · exact (ih inside).imp_right fun ⟨y, inside, same⟩ => ⟨y, List.mem_cons_of_mem x inside, same⟩

theorem operands (stocks : Stocks ok c items xs ls) (values : ∀ n, Pending.node n ∉ items) :
    ∀ x ∈ xs, c.session.types.Operand ok x := by
  induction stocks with
  | nil => exact nofun
  | token _ ih => exact ih fun n mem => values n (List.mem_cons_of_mem _ mem)
  | known _ _ _ ih => exact ih fun n mem => values n (List.mem_cons_of_mem _ mem)
  | broken _ _ ih => exact ih fun n mem => values n (List.mem_cons_of_mem _ mem)
  | @tree expression n _ _ _ _ _ operand _ ih =>
    refine List.forall_mem_cons.mpr ⟨operand ?_,
      ih fun n mem => values n (List.mem_cons_of_mem _ mem)⟩
    cases expression with
    | true => rfl
    | false => exact absurd List.mem_cons_self (values n)

theorem value_mem {n : Handle} (stocks : Stocks ok c items xs ls) (mem : Pending.value n ∈ items) :
    n = .broken ∨ ∃ x ∈ xs, n = c.session.tree.handle x.index ∧ c.session.types.Operand ok x := by
  induction stocks with
  | nil => cases mem
  | token _ ih | known _ _ _ ih =>
    rcases List.mem_cons.mp mem with same | inside
    · cases same
    · exact ih inside
  | broken _ _ ih =>
    rcases List.mem_cons.mp mem with same | inside
    · cases same
      exact .inl rfl
    · exact ih inside
  | @tree _ _ x _ _ _ named operand _ ih =>
    rcases List.mem_cons.mp mem with same | inside
    · cases same
      exact .inr ⟨x, List.mem_cons_self, named, operand rfl⟩
    · exact (ih inside).imp_right fun ⟨y, below, facts⟩ => ⟨y, List.mem_cons_of_mem x below, facts⟩

theorem fact {P : Session → Prop} (stocks : Stocks ok c items xs ls)
    (mem : Pending.known P ∈ items) : P c.session := by
  induction stocks with
  | nil => cases mem
  | known _ fact _ ih =>
    rcases List.mem_cons.mp mem with same | inside
    · cases same
      exact fact
    · exact ih inside
  | token _ ih | broken _ _ ih | tree _ _ _ ih =>
    rcases List.mem_cons.mp mem with same | inside
    · cases same
    · exact ih inside

end Stocks

/-! ## Between two steps -/

/-- What is known between two steps of a reader behind a place of its course, with some items on the
stack. -/
structure At (ok : Fault → Prop) (σ : Course) (low : Nat) (items : List Pending) (r : Reader)
    (c : Checker) : Prop where
  course : σ.Good ok
  reader : r.Follows ok σ low
  spelled : ok .badIndex ∨ ∀ tok ∈ σ.tokens, tok.kind = .identifier →
    c.session.spellings.has tok.spelling = true
  builtins : c.session.Library
  recovers : r.recovering = true → c.errors ≠ 0
  fine : c.Fine ok
  waits : ∃ xs ls junk, Stocks ok c items xs ls ∧ c.session.tree.Carries (xs ++ junk) ∧
    (c.errors = 0 → junk = σ.before ∧ Row σ.ruler 0 r.pos ls.reverse ∧
    ∀ x ∈ xs, c.InOrder ok σ.ruler σ.names x)

namespace At

variable {σ : Course} {low p : Nat} {items more : List Pending} {item : Pending} {r : Reader}
    {c c' : Checker} {n : Handle} {loc : Location} {expression : Bool} {P : Session → Prop}

theorem lower (held : At ok σ low items r c) (le : p ≤ low) : At ok σ p items r c :=
  { held with reader := held.reader.lower le }

theorem here (held : At ok σ low items r c) : At ok σ r.pos items r c :=
  { held with reader := held.reader.here }

theorem near (held : At ok σ low items r c) : Loose ok ∨ r.current.loc.Near :=
  held.reader.near held.course

theorem inside (held : At ok σ low items r c) : low < σ.tokens.size :=
  held.reader.low.trans_lt held.reader.inside

theorem current_mem (held : At ok σ low items r c) : r.current ∈ σ.tokens :=
  Array.mem_of_getElem? held.reader.current

theorem names_current (held : At ok σ low items r c) (kind : r.current.kind = .identifier) :
    σ.names r.current.loc.stop r.current.spelling :=
  ⟨r.current, by simpa using held.current_mem, kind, rfl, rfl⟩

/-! ### Steps of the checker -/

/-- The tables go on, and the trees stay where they are. -/
theorem step (held : At ok σ low items r c) (fine : c'.Fine ok)
    (tree : c'.session.tree = c.session.tree) (later : c.session.Later c'.session)
    (string : c'.stringType = c.stringType) (errors : c.errors ≤ c'.errors)
    (known : c.session.Library → c'.session.Library) : At ok σ low items r c' := by
  obtain ⟨course, reader, spelled, library, recovers, -, xs, ls, junk, stocks, carries, clean⟩ :=
    held
  have moves : c.Moves xs c' := ⟨later, string, errors, known, fun _ _ => by rw [tree]⟩
  have waits := stocks.moves moves fine.regular.types
  refine ⟨course, reader, ?spelled, known library, ?recovers, fine, xs, ls, junk, waits,
    tree ▸ carries, ?clean⟩
  case spelled =>
    exact spelled.imp_right fun spelled tok mem name => later.has (spelled tok mem name)
  case recovers =>
    intro recovering
    have some := recovers recovering
    omega
  case clean =>
    intro none
    obtain ⟨nothing, row, order⟩ := clean (by omega)
    exact ⟨nothing, row, fun x mem => (order x mem).moves moves fine.regular.types⟩

/-! ### Facts -/

theorem know (held : At ok σ low items r c) (lasting : Session.Lasting P) (fact : P c.session) :
    At ok σ low (.known P :: items) r c := by
  obtain ⟨course, reader, spelled, library, recovers, fine, xs, ls, junk, stocks, rest⟩ := held
  exact ⟨course, reader, spelled, library, recovers, fine, xs, ls, junk,
    .known lasting fact stocks, rest⟩

theorem fact (held : At ok σ low items r c) (mem : Pending.known P ∈ items) : P c.session := by
  obtain ⟨-, -, -, -, -, -, xs, ls, junk, stocks, -⟩ := held
  exact stocks.fact mem

/-! ### Fewer items -/

/-- A token or a fact is forgotten. -/
theorem forget (more : List Pending) (held : At ok σ low (more ++ item :: items) r c)
    (noTree : item.handle? = none) : At ok σ low (more ++ items) r c := by
  obtain ⟨course, reader, spelled, library, recovers, fine, xs, ls, junk, stocks, carries, clean⟩ :=
    held
  obtain ⟨ys, zs, ms, ks, rfl, rfl, above, below⟩ := stocks.split
  cases below with
  | token below =>
    refine ⟨course, reader, spelled, library, recovers, fine, _, _, junk, above.append below,
      carries, fun none => ?_⟩
    obtain ⟨nothing, row, order⟩ := clean none
    refine ⟨nothing, row.sublist ?_, order⟩
    rw [List.reverse_sublist]
    exact (List.sublist_cons_self _ _).append_left _
  | known lasting fact below =>
    exact ⟨course, reader, spelled, library, recovers, fine, _, _, junk, above.append below,
      carries, clean⟩
  | broken error below => cases noTree
  | tree named operand below => cases noTree

/-- The token or the fact on top is forgotten. -/
theorem pop (held : At ok σ low (item :: items) r c) (noTree : item.handle? = none) :
    At ok σ low items r c :=
  forget [] held noTree

/-- A part of the stack can be taken off and replaced by one node: by a broken one after an error,
or by a tree that lies in the part of the row that is free now. -/
theorem replace (post ops : List Pending) (held : At ok σ low (post ++ (ops ++ items)) r c) :
    ∃ xs ls rest p q, Stocks ok c ops xs ls ∧ c.session.tree.Carries (xs.reverse ++ rest) ∧
    (c.errors = 0 → Row σ.ruler p q ls.reverse ∧ (post = [] → q = r.pos) ∧
      ∀ x ∈ xs, c.InOrder ok σ.ruler σ.names x) ∧ ∀ c' expression n, c'.Fine ok → c.Moves rest c' →
    ((n = .broken ∧ c'.errors ≠ 0 ∧ ∃ junk, c'.session.tree.Carries (junk ++ rest)) ∨
      ∃ x, n = c'.session.tree.handle x.index ∧ c'.session.tree.Carries (x :: rest) ∧
      (expression = true → c'.session.types.Operand ok x) ∧
      (c'.errors = 0 → c'.InOrder ok σ.ruler σ.names x ∧ Row σ.ruler p q [x.location])) →
    At ok σ low (post ++ .tree expression n :: items) r c' := by
  obtain ⟨course, reader, spelled, library, recovers, -, ts, ks, junk, stocks, carries, clean⟩ :=
    held
  obtain ⟨ps, ts, ks₃, ks, rfl, rfl, above, stocks⟩ := stocks.split
  obtain ⟨xs, ys, ks₂, ks₁, rfl, rfl, middle, below⟩ := stocks.split
  have order : (ps ++ (xs ++ ys) ++ junk).Perm (xs.reverse ++ (ps ++ ys ++ junk)) := by
    simp only [List.append_assoc]
    exact (List.perm_append_comm_assoc ps xs _).trans ((List.reverse_perm xs).symm.append_right _)
  -- Where the row is cut, unless there is none after an error.
  have cut : ∃ p q, c.errors = 0 → Row σ.ruler 0 p ks₁.reverse ∧ Row σ.ruler p q ks₂.reverse ∧
      Row σ.ruler q r.pos ks₃.reverse ∧ (post = [] → q = r.pos) := by
    by_cases none : c.errors = 0
    · obtain ⟨-, whole, -⟩ := clean none
      rw [List.reverse_append, List.reverse_append] at whole
      obtain ⟨q, upper, last⟩ := whole.split
      obtain ⟨p, first, row⟩ := upper.split
      by_cases top : post = []
      · subst top
        cases above
        exact ⟨p, r.pos, fun _ => ⟨first, row.widen (le_refl p) last.le, le_refl _, fun _ => rfl⟩⟩
      · exact ⟨p, q, fun _ => ⟨first, row, last, fun empty => absurd empty top⟩⟩
    · exact ⟨0, 0, fun zero => absurd zero none⟩
  obtain ⟨p, q, cut⟩ := cut
  refine ⟨xs, ks₂, ps ++ ys ++ junk, p, q, middle, carries.perm order, fun none => ?_, ?_⟩
  · obtain ⟨-, row, -, top⟩ := cut none
    exact ⟨row, top, fun x mem => (clean none).2.2 x (by simp [mem])⟩
  intro c' expression n fine moves outcome
  have tiled := fine.regular.types
  have movesAbove : c.Moves ps c' := moves.sub (by simp +contextual)
  have movesBelow : c.Moves ys c' := moves.sub (by simp +contextual)
  have errors := moves.errors
  have spelled := spelled.imp_right fun spelled tok mem name =>
    moves.later.has (spelled tok mem name)
  have library := moves.library library
  have recovers : r.recovering = true → c'.errors ≠ 0 := fun recovering => by
    have := recovers recovering
    omega
  rcases outcome with ⟨rfl, error, left, after⟩ | ⟨x, named, after, operand, good⟩
  · refine ⟨course, reader, spelled, library, recovers, fine, _, _, junk ++ left,
      (above.moves movesAbove tiled).append (.broken error (below.moves movesBelow tiled)),
      after.perm ?_, fun none => absurd none error⟩
    exact List.perm_append_comm.trans (by simp)
  · refine ⟨course, reader, spelled, library, recovers, fine, _, _, junk,
      (above.moves movesAbove tiled).append (.tree named operand (below.moves movesBelow tiled)),
      after.perm ?_, fun none => ?_⟩
    · rw [List.append_assoc, List.append_assoc, List.cons_append]
      exact List.perm_middle.symm
    · have clear : c.errors = 0 := by omega
      obtain ⟨first, -, last, -⟩ := cut clear
      obtain ⟨nothing, -, all⟩ := clean clear
      obtain ⟨inOrder, place⟩ := good none
      refine ⟨nothing, ?_, fun y mem => ?_⟩
      · rw [List.reverse_append, List.reverse_cons]
        exact (first.append place).append last
      · rcases List.mem_append.mp mem with mem | mem
        · exact (all y (by simp [mem])).moves movesAbove tiled
        · rcases List.mem_cons.mp mem with rfl | mem
          · exact inOrder
          · exact (all y (by simp [mem])).moves movesAbove tiled

/-- After an error a broken node stands for anything. -/
theorem giveUp (post more : List Pending) (held : At ok σ low (post ++ (more ++ items)) r c)
    (error : c.errors ≠ 0) : At ok σ low (post ++ .tree expression .broken :: items) r c := by
  obtain ⟨xs, ls, rest, p, q, -, carries, -, close⟩ := replace post more held
  exact close c expression .broken held.fine (.refl c rest) (.inl ⟨rfl, error, xs.reverse, carries⟩)

/-- After an error anything may be left behind. -/
theorem abandon (more : List Pending) (held : At ok σ low (more ++ items) r c)
    (error : c.errors ≠ 0) : At ok σ low items r c := by
  obtain ⟨course, reader, spelled, library, recovers, fine, xs, ls, junk, stocks, carries, -⟩ :=
    held
  obtain ⟨ys, zs, ms, ks, rfl, rfl, above, below⟩ := stocks.split
  refine ⟨course, reader, spelled, library, recovers, fine, zs, ks, ys ++ junk, below,
    carries.perm ?_, fun none => absurd none error⟩
  rw [List.append_assoc]
  exact List.perm_append_comm_assoc ys zs junk

/-- An error is remembered as a broken node. -/
theorem mark (held : At ok σ low items r c) (error : c.errors ≠ 0) :
    At ok σ low (.node .broken :: items) r c :=
  giveUp [] [] held error

/-- An expression is a node. -/
theorem weaken (held : At ok σ low (.value n :: items) r c) :
    At ok σ low (.node n :: items) r c := by
  obtain ⟨course, reader, spelled, library, recovers, fine, xs, ls, junk, stocks, rest⟩ := held
  cases stocks with
  | broken error below =>
    exact ⟨course, reader, spelled, library, recovers, fine, _, _, junk, .broken error below, rest⟩
  | tree named operand below =>
    exact ⟨course, reader, spelled, library, recovers, fine, _, _, junk,
      .tree named nofun below, rest⟩

/-! ### Nodes -/

/-- The node of an item is broken only after an error, and then it is the broken one. -/
theorem isBroken (held : At ok σ low items r c) (mem : n ∈ handles items) :
    c.session.tree.isBroken n = (n == .broken) ∧ (n = .broken → c.errors ≠ 0) := by
  obtain ⟨-, -, -, -, -, -, xs, ls, junk, stocks, carries, -⟩ := held
  rcases stocks.node mem with ⟨rfl, error⟩ | ⟨x, inside, rfl⟩
  · exact ⟨by rw [Arena.isBroken_broken]; rfl, fun _ => error⟩
  · have live := carries.ne_broken (List.mem_append_left junk inside)
    refine ⟨?_, fun broken => absurd broken live⟩
    rw [carries.isBroken (List.mem_append_left junk inside)]
    simpa using live

theorem errors_of_broken (held : At ok σ low items r c) (mem : n ∈ handles items)
    (broken : c.session.tree.isBroken n = true) : c.errors ≠ 0 := by
  obtain ⟨same, error⟩ := held.isBroken mem
  rw [same] at broken
  exact error (by simpa using broken)

/-- An error that was remembered. -/
theorem marked (held : At ok σ low (.node .broken :: items) r c) : At ok σ low items r c ∧
    c.errors ≠ 0 := by
  have error := (held.isBroken (n := .broken) (by simp [handles, handle?])).2 rfl
  exact ⟨abandon [_] held error, error⟩

/-! ### Steps of the reader -/

/-- A token is passed. -/
theorem advance (held : At ok σ low items r c) (more : r.current.kind ≠ .endOfInput) :
    At ok σ (r.pos + 1) (.token r.current.loc :: items) r.advanced c := by
  obtain ⟨course, reader, spelled, library, recovers, fine, xs, ls, junk, stocks, carries, clean⟩ :=
    held
  obtain ⟨follows, moved, -⟩ := reader.advanced course more
  have same : r.advanced.recovering = r.recovering := by
    unfold Reader.advanced
    split <;> rfl
  refine ⟨course, follows, spelled, library, by rwa [same], fine, xs, _, junk, .token stocks,
    carries, fun none => ?_⟩
  obtain ⟨nothing, row, order⟩ := clean none
  refine ⟨nothing, ?_, order⟩
  rw [moved, List.reverse_cons]
  exact row.append (.single (le_refl _) (.single (reader.ruler_current more)) (Nat.lt_succ_self _))

/-- After an error a token may be missing. -/
theorem missing (held : At ok σ low items r c) (error : c.errors ≠ 0) (loc : Location) :
    At ok σ low (.token loc :: items) r c := by
  obtain ⟨course, reader, spelled, library, recovers, fine, xs, ls, junk, stocks, carries, -⟩ :=
    held
  exact ⟨course, reader, spelled, library, recovers, fine, xs, _, junk, .token stocks, carries,
    fun none => absurd none error⟩

/-- A reader recovers after an error. -/
theorem recover (held : At ok σ low items r c) (recovering : Bool)
    (error : recovering = true → c.errors ≠ 0) : At ok σ low items { r with recovering } c := by
  obtain ⟨course, ⟨tokens, trail, watch, low, current, previous, passed, behind⟩, spelled, library,
      -, fine, waits⟩ :=
    held
  exact ⟨course, ⟨tokens, trail, watch, low, current, previous, passed, behind⟩, spelled, library,
    error, fine, waits⟩

theorem enter (held : At ok σ low items r c) (rule : Rule) (pos : Nat) :
    At ok (σ.enter rule pos) low items { r with trail := (rule, pos) :: σ.trail } c :=
  ⟨held.course.enter rule pos, held.reader.enter rule pos, held.spelled, held.builtins,
    held.recovers, held.fine, held.waits⟩

theorem leave {rule : Rule} {pos : Nat} (good : σ.Good ok)
    (held : At ok (σ.enter rule pos) low items r c) :
    At ok σ low items { r with trail := σ.trail } c :=
  ⟨good, held.reader.leave, held.spelled, held.builtins, held.recovers, held.fine, held.waits⟩

end At

end BilingualC
