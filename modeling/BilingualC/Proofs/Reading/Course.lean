import Mathlib
import BilingualC.Grammar.Declaration
import BilingualC.Proofs.Total.Rules

/-!
# The course of a reader

A reader goes through the tokens from the first to the last one, which ends the input and is never
passed. `Reader.Follows` says where it is. `Rule.rank` orders the rules of the grammar: at the place
where it starts, a rule applies rules of lower ranks only, and rules of any rank after it has passed
a token. This is why the nesting of rules is bounded by the number of tokens that are left
(`Grammar.MayStart`).

There is one exception. Where a member of a structure should start after a semicolon and nothing
that can start one is there, the members start over at the same place, again and again
(`Start.isStuck`).
-/

namespace BilingualC

namespace Grammar

/-! ## Ranks of rules -/

/-- At the place where it starts, a rule applies rules of lower ranks only. -/
def Rule.rank : Rule → Nat
  | .skipStatement => 0
  | .expressionTail | .binaryTail | .postfixTail | .stars | .fieldBounds | .bounds
  | .parameterBounds | .primaryExpression =>
    1
  | .postfixExpression | .structureSpecifier => 2
  | .typeSpecifier => 3
  | .unaryExpression | .fieldList | .parameterList => 4
  | .binaryExpression | .members | .parameters => 5
  | .conditionalExpression => 6
  | .assignmentExpression => 7
  | .expression | .argumentList | .initializer => 8
  | .arguments | .initializerElements | .controlExpression | .declarator | .blockBody => 9
  | .declaratorList | .scopedBlock => 10
  | .restOfDeclaration | .restOfTypedef => 11
  | .declaration => 12
  | .statement => 13
  | .loopBody | .firstClause => 14
  | .forStatement => 15
  | .blockItems => 16
  | .function => 17
  | .externalDeclaration => 18
  | .externalDeclarations => 19

theorem Rule.rank_lt (rule : Rule) : rule.rank < 32 := by cases rule <;> decide

/-! ## Starts of rules -/

/-- Says whether a type specifier starts with a token. -/
def startsType (s : Session) (tok : Token) : Bool :=
  tok.kind.isTypeSpecifier || (tok.kind == .identifier && s.lookup tok.spelling != 0 &&
    (s.identifier (s.lookup tok.spelling)).kind == .typeName)

/-- Says whether the members of a structure start where they find nothing to read and nothing to
skip: after a semicolon, in front of something that is neither the end of the structure nor a type
specifier. -/
def Start.isStuck (start : Start) : Bool :=
  start.rule == .members && start.previous.kind == .semicolon && start.current.kind !=
    .rightBrace && start.current.kind != .endOfInput && !startsType start.session start.current

/-- The rules that are being applied started before, or at the same place and have higher ranks. -/
def Start.IsFresh (start : Start) : Prop :=
  ∀ e ∈ start.within, e.2 < start.pos ∨ (e.2 = start.pos ∧ start.rule.rank < e.1.rank)

end Grammar

open Grammar

/-! ## Courses -/

/-- The tokens that a reader goes through, the rules that are being applied and the starts that are
watched for. -/
structure Course where
  tokens : Array Token
  trail : List (Rule × Nat)
  watch : Watch
  /-- The trees that were under the root before the first token was read. -/
  before : List Rose

namespace Course

variable {ok : Fault → Prop} {σ : Course}

/-- The locations of the tokens in front of the end of the input. -/
def ruler (σ : Course) : List Location :=
  (σ.tokens.toList.takeWhile fun tok => tok.kind != .endOfInput).map Token.loc

/-- The names among the tokens. -/
def names (σ : Course) : Session.NameEnds := Session.nameEndsOf σ.tokens.toList

/-- The course inside of a rule. -/
def enter (σ : Course) (rule : Rule) (pos : Nat) : Course :=
  { σ with trail := (rule, pos) :: σ.trail }

/-- Tokens that end with the end of the input, and a watch that stops a reader or lets it go on only
where this is allowed for. -/
structure Good (ok : Fault → Prop) (σ : Course) : Prop where
  ends : ∀ pos tok, σ.tokens[pos]? = some tok → tok.kind ≠ .endOfInput → pos + 1 < σ.tokens.size
  near : Loose ok ∨ ((∀ tok ∈ σ.tokens, tok.loc.Near) ∧ (σ.tokens.size : Int) * 4 ≤ largestBlock)
  stopped : ok .stopped ∨ ∀ start : Start, start.IsFresh ∨ start.isStuck = true →
    σ.watch start = false
  endless : ok .endless ∨ ∀ start : Start, start.isStuck = true → σ.watch start = true

theorem Good.enter (good : σ.Good ok) (rule : Rule) (pos : Nat) : (σ.enter rule pos).Good ok :=
  ⟨good.ends, good.near, good.stopped, good.endless⟩

theorem Good.behind (good : σ.Good ok) (before : List Rose) :
    ({ σ with before } : Course).Good ok :=
  ⟨good.ends, good.near, good.stopped, good.endless⟩

theorem getElem?_takeWhile {α : Type} {p : α → Bool} {l : List α} {n : Nat}
    (all : ∀ i a, i ≤ n → l[i]? = some a → p a = true) : (l.takeWhile p)[n]? = l[n]? := by
  induction l generalizing n with
  | nil => rfl
  | cons a l ih =>
    rw [List.takeWhile_cons_of_pos (all 0 a (Nat.zero_le n) rfl)]
    cases n with
    | zero => rfl
    | succ n => exact ih fun i b le found => all (i + 1) b (Nat.succ_le_succ le) found

/-- The place on the ruler of a token that is not behind the end of the input. -/
theorem ruler_of_open {pos : Nat} {tok : Token} (read : σ.tokens[pos]? = some tok)
    (inside : ∀ i tok, i ≤ pos → σ.tokens[i]? = some tok → tok.kind ≠ .endOfInput) :
    σ.ruler[pos]? = some tok.loc := by
  rw [ruler, List.getElem?_map, getElem?_takeWhile, Array.getElem?_toList, read]
  · rfl
  · intro i a le found
    rw [Array.getElem?_toList] at found
    simpa using inside i a le found

end Course

/-! ## Readers -/

/-- A reader is at or behind a place of its course. -/
structure Reader.Follows (ok : Fault → Prop) (σ : Course) (low : Nat) (r : Reader) : Prop where
  tokens : r.tokens = σ.tokens
  trail : r.trail = σ.trail
  watch : r.watch = σ.watch
  low : low ≤ r.pos
  current : σ.tokens[r.pos]? = some r.current
  previous : r.pos ≠ 0 → σ.tokens[r.pos - 1]? = some r.previous
  passed : ∀ i tok, i < r.pos → σ.tokens[i]? = some tok → tok.kind ≠ .endOfInput
  behind : Loose ok ∨ r.previous.loc.Near

namespace Reader.Follows

variable {ok : Fault → Prop} {σ : Course} {low p : Nat} {r : Reader}

theorem lower (follows : r.Follows ok σ low) (le : p ≤ low) : r.Follows ok σ p :=
  { follows with low := le.trans follows.low }

theorem here (follows : r.Follows ok σ low) : r.Follows ok σ r.pos :=
  { follows with low := le_refl _ }

theorem inside (follows : r.Follows ok σ low) : r.pos < σ.tokens.size :=
  (Array.getElem?_eq_some_iff.mp follows.current).1

theorem near (follows : r.Follows ok σ low) (good : σ.Good ok) : Loose ok ∨ r.current.loc.Near :=
  good.near.imp_right fun near => near.1 _ (Array.mem_of_getElem? follows.current)

theorem passed_to (follows : r.Follows ok σ low) (more : r.current.kind ≠ .endOfInput) (i : Nat)
    (tok : Token) (le : i ≤ r.pos) (found : σ.tokens[i]? = some tok) : tok.kind ≠ .endOfInput := by
  rcases Nat.lt_or_eq_of_le le with before | rfl
  · exact follows.passed i tok before found
  · exact Option.some.inj (follows.current.symm.trans found) ▸ more

/-- A token that does not end the input can be passed. -/
theorem advanced_eq (follows : r.Follows ok σ low) (good : σ.Good ok)
    (more : r.current.kind ≠ .endOfInput) : ∃ tok, σ.tokens[r.pos + 1]? = some tok ∧
    r.advanced = { r with previous := r.current, pos := r.pos + 1, current := tok } := by
  have room := good.ends _ _ follows.current more
  refine ⟨σ.tokens[r.pos + 1], Array.getElem?_eq_getElem room, ?_⟩
  have same : r.tokens.getD (r.pos + 1) r.current = σ.tokens[r.pos + 1] := by
    rw [follows.tokens, Array.getD_eq_getD_getElem?, Array.getElem?_eq_getElem room]
    rfl
  rw [Reader.advanced, if_pos (by rw [follows.tokens]; exact room), same]

theorem advanced (follows : r.Follows ok σ low) (good : σ.Good ok)
    (more : r.current.kind ≠ .endOfInput) : r.advanced.Follows ok σ (r.pos + 1) ∧
    r.advanced.pos = r.pos + 1 ∧ r.advanced.previous = r.current := by
  obtain ⟨tok, read, same⟩ := follows.advanced_eq good more
  rw [same]
  refine ⟨⟨follows.tokens, follows.trail, follows.watch, le_refl _, read, fun _ => follows.current,
    fun i tok before found => ?_, follows.near good⟩, rfl, rfl⟩
  exact follows.passed_to more i tok (Nat.le_of_lt_succ before) found

/-- The place of the current token on the ruler. -/
theorem ruler_current (follows : r.Follows ok σ low) (more : r.current.kind ≠ .endOfInput) :
    σ.ruler[r.pos]? = some r.current.loc :=
  Course.ruler_of_open follows.current (follows.passed_to more)

/-- The place of the token before the current one on the ruler. -/
theorem ruler_previous (follows : r.Follows ok σ low) (pos : r.pos ≠ 0) :
    σ.ruler[r.pos - 1]? = some r.previous.loc := by
  exact Course.ruler_of_open (follows.previous pos) fun i tok le found =>
    follows.passed i tok (by omega) found

theorem enter (follows : r.Follows ok σ low) (rule : Rule) (pos : Nat) :
    ({ r with trail := (rule, pos) :: σ.trail } : Reader).Follows ok (σ.enter rule pos) low :=
  ⟨follows.tokens, rfl, follows.watch, follows.low, follows.current, follows.previous,
    follows.passed, follows.behind⟩

theorem leave {rule : Rule} {pos : Nat} (follows : r.Follows ok (σ.enter rule pos) low) :
    ({ r with trail := σ.trail } : Reader).Follows ok σ low :=
  ⟨follows.tokens, rfl, follows.watch, follows.low, follows.current, follows.previous,
    follows.passed, follows.behind⟩

end Reader.Follows

/-! ## Readiness -/

namespace Grammar

variable {ok : Fault → Prop} {σ : Course} {rule callee : Rule} {low p depth d : Nat}

/-- A rule may be applied at or behind a place: its depth is enough for the tokens that are left,
and the rules that are being applied started before or have no lower ranks. -/
structure Allowed (ok : Fault → Prop) (σ : Course) (rule : Rule) (low depth : Nat) : Prop where
  fuel : ok .endless ∨ rule.rank + 32 * (σ.tokens.size - low) ≤ depth
  within : ∀ e ∈ σ.trail, e.2 < low ∨ (e.2 = low ∧ rule.rank ≤ e.1.rank)

/-- A rule may start at or behind a place: it is allowed there and does not start over. -/
structure MayStart (ok : Fault → Prop) (σ : Course) (rule : Rule) (low depth : Nat) :
    Prop extends Allowed ok σ rule low depth where
  fresh : ∀ e ∈ σ.trail, e.2 < low ∨ (e.2 = low ∧ rule.rank < e.1.rank)

theorem ready_of_fresh (fuel : ok .endless ∨ rule.rank + 32 * (σ.tokens.size - low) ≤ depth)
    (fresh : ∀ e ∈ σ.trail, e.2 < low ∨ (e.2 = low ∧ rule.rank < e.1.rank)) :
    MayStart ok σ rule low depth :=
  ⟨⟨fuel, fun e mem => (fresh e mem).imp_right fun here => ⟨here.1, here.2.le⟩⟩, fresh⟩

theorem MayStart.raise (ready : MayStart ok σ rule low depth) (higher : low ≤ p) :
    MayStart ok σ rule p depth := by
  refine ready_of_fresh (ready.fuel.imp_right fun fuel => by omega) fun e mem => ?_
  rcases ready.fresh e mem with before | ⟨same, rank⟩
  · exact .inl (by omega)
  · by_cases here : low = p
    · exact .inr ⟨by omega, rank⟩
    · exact .inl (by omega)

theorem MayStart.deepen (ready : MayStart ok σ rule low depth) (deeper : depth ≤ d) :
    MayStart ok σ rule low d :=
  ready_of_fresh (ready.fuel.imp_right fun fuel => fuel.trans deeper) ready.fresh

namespace Allowed

/-- There is no fuel without depth. -/
theorem endless (allowed : Allowed ok σ rule low 0) (inside : low < σ.tokens.size) : ok .endless :=
  allowed.fuel.resolve_right fun fuel => by omega

theorem raise (allowed : Allowed ok σ rule low depth) (higher : low ≤ p) :
    Allowed ok σ rule p depth := by
  refine ⟨allowed.fuel.imp_right fun fuel => by omega, fun e mem => ?_⟩
  rcases allowed.within e mem with before | ⟨same, rank⟩
  · exact .inl (by omega)
  · by_cases here : low = p
    · exact .inr ⟨by omega, rank⟩
    · exact .inl (by omega)

/-- A rule applies itself where it starts. -/
theorem again (allowed : Allowed ok σ rule low depth) :
    Allowed ok (σ.enter rule low) rule low depth :=
  ⟨allowed.fuel, List.forall_mem_cons.mpr ⟨.inr ⟨rfl, le_refl _⟩, allowed.within⟩⟩

/-- A rule applies one of a lower rank where it starts. -/
theorem down (allowed : Allowed ok σ rule low depth) (deep : depth ≤ d + 1)
    (lower : callee.rank < rule.rank) : MayStart ok (σ.enter rule low) callee low d := by
  refine ready_of_fresh (allowed.fuel.imp_right fun fuel => ?_)
    (List.forall_mem_cons.mpr ⟨.inr ⟨rfl, lower⟩, fun e mem => ?_⟩)
  · change callee.rank + 32 * (σ.tokens.size - low) ≤ d
    omega
  · exact (allowed.within e mem).imp_right fun here => ⟨here.1, lower.trans_le here.2⟩

/-- A rule applies any rule behind the place where it started. -/
theorem on (allowed : Allowed ok σ rule low depth) (deep : depth ≤ d + 1)
    (inside : low < σ.tokens.size) (callee : Rule) :
    MayStart ok (σ.enter rule low) callee (low + 1) d := by
  refine ready_of_fresh (allowed.fuel.imp_right fun fuel => ?_)
    (List.forall_mem_cons.mpr ⟨.inl (Nat.lt_succ_self low), fun e mem => .inl ?_⟩)
  · have rank := callee.rank_lt
    change callee.rank + 32 * (σ.tokens.size - (low + 1)) ≤ d
    omega
  · rcases allowed.within e mem with before | ⟨same, -⟩ <;> omega

end Allowed

end Grammar

end BilingualC
