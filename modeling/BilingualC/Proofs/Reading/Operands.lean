import Mathlib
import BilingualC.Proofs.Reading.Nodes

/-!
# Expressions above what waits

Each rule for expressions with the items that it takes: its operands with the tokens of the
operators, brackets and names around and between them. Every expression goes from the first to the
last of these, but an absolute value, which ends with its operand.
-/

namespace BilingualC

open Guarded Rose Grammar Pending Checker Stocks

variable {ok : Fault → Prop}

namespace Stocks

variable {c : Checker} {items : List Pending} {xs : List Rose} {ls : List Location}
    {ns : List Handle}

/-- Between a first and a last token the locations of any nodes are covered. -/
theorem between {opening close : Location}
    (stocks : Stocks ok c (.token close :: (items ++ [.token opening])) xs ls) :
    ls.reverse.head? = some opening ∧ ls.head? = some close := by
  obtain ⟨ms, rfl, inner⟩ := token_iff.mp stocks
  obtain ⟨ys, zs, ms, ks, rfl, rfl, -, below⟩ := inner.split
  simp only [token_iff, nil_iff] at below
  obtain ⟨_, rfl, rfl, rfl⟩ := below
  simp

theorem each_inv {expression : Bool} (none : c.errors = 0)
    (stocks : Stocks ok c (each expression ns) xs ls) : ns = c.handles xs.reverse := by
  rw [← Pending.handles_each expression ns]
  generalize each expression ns = items at stocks
  rw [Pending.handles, Checker.handles, List.map_reverse]
  congr 1
  induction stocks with
  | nil => rfl
  | token _ ih => exact ih
  | known _ _ _ ih => exact ih
  | broken error _ _ => exact absurd none error
  | tree named _ _ ih => rw [filterMap_tree, ih, named, List.map_cons]

end Stocks

namespace At

variable {σ : Course} {low : Nat} {items post : List Pending} {r : Reader} {c : Checker}
    {n m : Handle} {ns : List Handle} {loc opLoc opening close : Location}

/-- What a rule leaves: an expression on the stack. -/
abbrev Leaves (ok : Fault → Prop) (σ : Course) (low : Nat) (items : List Pending) (r : Reader)
    (rule : Check Handle) (c : Checker) : Prop :=
  Checker.Ends ok rule c fun n c' => At ok σ low (.value n :: items) r c'

theorem identifier (post : List Pending) (held : At ok σ low (post ++ .token loc :: items) r c)
    (spelling : Int) (near : Loose ok ∨ loc.Near) :
    Checker.Ends ok (Checker.identifier spelling loc) c fun n c' =>
    At ok σ low (post ++ .value n :: items) r c' := by
  refine construct (.identifier spelling loc) post [.token loc] held rfl (by simp) trivial trivial
    (near.imp_right fun near => by simpa [Construction.locations] using near) fun none =>
    covers_of_ends fun xs ls stocks => ?_
  simp only [token_iff, nil_iff] at stocks
  obtain ⟨_, rfl, rfl, rfl⟩ := stocks
  exact ⟨loc, loc, rfl, rfl, rfl⟩

theorem value (held : At ok σ low (.value n :: items) r c) :
    Leaves ok σ low items r (Checker.value n) c := by
  refine construct (.value n) [] [.value n] held rfl (by simp) trivial trivial
    (.inr (by simp [Construction.locations])) fun none =>
    covers_of_ends fun xs ls stocks => ?_
  simp only [value_iff none, nil_iff] at stocks
  obtain ⟨x, _, _, rfl, rfl, -, rfl, rfl⟩ := stocks
  exact ⟨x.location, x.location, rfl, rfl, rfl⟩

theorem constant {tok : Token} (held : At ok σ low (.token tok.loc :: items) r c)
    (near : Loose ok ∨ tok.loc.Near) : Leaves ok σ low items r (Checker.constant tok) c := by
  refine construct (.constant tok) [] [.token tok.loc] held rfl (by simp) trivial trivial
    (near.imp_right fun near => by simpa [Construction.locations] using near) fun none =>
    covers_of_ends fun xs ls stocks => ?_
  simp only [token_iff, nil_iff] at stocks
  obtain ⟨_, rfl, rfl, rfl⟩ := stocks
  exact ⟨tok.loc, tok.loc, rfl, rfl, rfl⟩

theorem subscript
    (held : At ok σ low (.token close :: .value m :: .token opening :: .value n :: items) r c)
    (near : Loose ok ∨ (opening.Near ∧ close.Near)) :
    Leaves ok σ low items r (Checker.subscript n m opening close) c := by
  refine construct (.subscript n m opening close) [] [.token close, .value m,
    .token opening, .value n] held rfl (by simp) trivial trivial (near.imp_right fun near =>
    by simpa [Construction.locations] using near) fun none => covers_of_ends fun xs ls stocks => ?_
  simp only [token_iff, value_iff none, nil_iff] at stocks
  obtain ⟨_, rfl, y, _, _, rfl, rfl, -, _, rfl, x, _, _, rfl, rfl, -, rfl, rfl⟩ := stocks
  exact ⟨x.location, close, rfl, rfl, rfl⟩

theorem call
    (held : At ok σ low (.token close :: (each true ns ++ .token opening :: .value n :: items)) r c)
    (near : Loose ok ∨ (opening.Near ∧ close.Near)) :
    Leaves ok σ low items r (Checker.call n ns opening close) c := by
  have held : At ok σ low
      ((.token close :: (each true ns ++ [Pending.token opening, Pending.value n])) ++ items) r c :=
      by
    simpa using held
  refine construct (.call n ns opening close) [] (.token close ::
    (each true ns ++ [Pending.token opening, Pending.value n])) held ?_ ?_ trivial trivial
    (near.imp_right fun near => by simpa [Construction.locations] using near) fun none =>
    covers_of_ends fun xs ls stocks => ?_
  · rw [handles_of_none rfl, handles_append, Pending.handles_each]
    rfl
  · simp [each]
  · obtain ⟨_, rfl, inner⟩ := token_iff.mp stocks
    obtain ⟨ys, zs, ms, ks, rfl, rfl, -, below⟩ := inner.split
    simp only [token_iff, value_iff none, nil_iff] at below
    obtain ⟨_, rfl, x, _, _, rfl, rfl, -, rfl, rfl⟩ := below
    exact ⟨x.location, close, by simp, rfl, by simp [Construction.place]⟩

theorem member (held : At ok σ low (.token loc :: .token opLoc :: .value n :: items) r c)
    (name : Int) (arrow : Bool)
    (ends : σ.names loc.stop name) (near : Loose ok ∨ (opLoc.Near ∧ loc.Near)) :
    Leaves ok σ low items r (Checker.member n name arrow opLoc loc) c := by
  refine construct (.member n name arrow opLoc loc) [] [.token loc, .token opLoc,
    .value n] held rfl (by simp) trivial ends (near.imp_right fun near =>
    by simpa [Construction.locations] using near) fun none => covers_of_ends fun xs ls stocks => ?_
  simp only [token_iff, value_iff none, nil_iff] at stocks
  obtain ⟨_, rfl, _, rfl, x, _, _, rfl, rfl, -, rfl, rfl⟩ := stocks
  exact ⟨x.location, loc, rfl, rfl, rfl⟩

/-- An operator in front of its operand. -/
theorem before {op : UnaryOp} (held : At ok σ low (.value n :: .token opLoc :: items) r c)
    (listed : ∀ k, op ≠ .unlisted k) (isPrefix : op.isPostfix = false)
    (near : Loose ok ∨ opLoc.Near) : Leaves ok σ low items r (Checker.unary op n opLoc) c := by
  refine construct (.unary op n opLoc) [] [.value n, .token opLoc] held rfl (by simp) listed trivial
    (near.imp_right fun near => by simpa [Construction.locations] using near) fun none =>
    covers_of_ends fun xs ls stocks => ?_
  simp only [token_iff, value_iff none, nil_iff] at stocks
  obtain ⟨x, _, _, rfl, rfl, -, _, rfl, rfl, rfl⟩ := stocks
  exact ⟨opLoc, x.location, rfl, rfl, by simp [Construction.place, unaryPlace, isPrefix]⟩

/-- An operator behind its operand. -/
theorem behind {op : UnaryOp} (held : At ok σ low (.token opLoc :: .value n :: items) r c)
    (listed : ∀ k, op ≠ .unlisted k) (isPostfix : op.isPostfix = true)
    (near : Loose ok ∨ opLoc.Near) : Leaves ok σ low items r (Checker.unary op n opLoc) c := by
  refine construct (.unary op n opLoc) [] [.token opLoc, .value n] held rfl (by simp) listed trivial
    (near.imp_right fun near => by simpa [Construction.locations] using near) fun none =>
    covers_of_ends fun xs ls stocks => ?_
  simp only [token_iff, value_iff none, nil_iff] at stocks
  obtain ⟨_, rfl, x, _, _, rfl, rfl, -, rfl, rfl⟩ := stocks
  exact ⟨x.location, opLoc, rfl, rfl, by simp [Construction.place, unaryPlace, isPostfix]⟩

theorem binary {op : BinaryOp}
    (held : At ok σ low (.value m :: .token opLoc :: .value n :: items) r c)
    (listed : ∀ k, op ≠ .unlisted k) (near : Loose ok ∨ opLoc.Near) :
    Leaves ok σ low items r (Checker.binary op n m opLoc) c := by
  refine construct (.binary op n m opLoc) [] [.value m, .token opLoc,
    .value n] held rfl (by simp) listed trivial (near.imp_right fun near =>
    by simpa [Construction.locations] using near) fun none => covers_of_ends fun xs ls stocks => ?_
  simp only [token_iff, value_iff none, nil_iff] at stocks
  obtain ⟨y, _, _, rfl, rfl, -, _, rfl, x, _, _, rfl, rfl, -, rfl, rfl⟩ := stocks
  exact ⟨x.location, y.location, rfl, rfl, rfl⟩

theorem ternary {cond yes no : Handle} {colon : Location} (held : At ok σ low
      (.value no :: .token colon :: .value yes :: .token opLoc :: .value cond :: items) r c)
    (near : Loose ok ∨ opLoc.Near) :
    Leaves ok σ low items r (Checker.ternary cond yes no opLoc) c := by
  refine construct (.ternary cond yes no opLoc) [] [.value no, .token colon, .value yes,
    .token opLoc, .value cond] held rfl (by simp) trivial trivial (near.imp_right fun near =>
    by simpa [Construction.locations] using near) fun none =>
    covers_of_ends fun xs ls stocks => ?_
  simp only [token_iff, value_iff none, nil_iff] at stocks
  obtain ⟨z, _, _, rfl, rfl, -, _, rfl, y, _, _, rfl, rfl, -, _, rfl, x, _, _, rfl, rfl, -,
      rfl, rfl⟩ :=
    stocks
  exact ⟨x.location, z.location, rfl, rfl, rfl⟩

theorem list (held : At ok σ low (.token close :: (each true ns ++ .token opening :: items)) r c)
    (near : Loose ok ∨ (opening.Near ∧ close.Near)) :
    Leaves ok σ low items r (Checker.initializerList ns opening close) c := by
  have held :
      At ok σ low ((.token close :: (each true ns ++ [Pending.token opening])) ++ items) r c := by
    simpa using held
  apply construct (.list ns opening close) []
    (.token close :: (each true ns ++ [Pending.token opening])) held
  case operands =>
    rw [handles_of_none rfl, handles_append, Pending.handles_each]
    rfl
  case values => simp [each]
  case listed => trivial
  case named => trivial
  case near =>
    exact near.imp_right fun near => by simpa [Construction.locations] using near
  case covers =>
    intro none
    refine covers_of_ends fun xs ls stocks => ?_
    exact ⟨opening, close, stocks.between.1, stocks.between.2, rfl⟩

/-- The absolute value goes from the name of the function to the end of the operand. -/
theorem absolute
    (held : At ok σ low (.token close :: .value n :: .token opening :: .token loc :: items) r c)
    (near : Loose ok ∨ (loc.Near ∧ close.Near)) :
    Leaves ok σ low items r (Checker.library .abs [n] (Location.span loc close)) c := by
  have near : Loose ok ∨
      ∀ l ∈ (Construction.library .abs [n] (Location.span loc close)).locations, l.Near :=
    near.imp_right fun near => by simpa [Construction.locations] using near.1.span near.2
  refine Checker.Ends.mono (construct (.library .abs [n] (Location.span loc close)) [.token close]
    [.value n, .token opening, .token loc] held rfl (by simp) rfl trivial near ?covers) ?after
  case covers =>
    intro none
    refine covers_of_ends fun xs ls stocks => ?_
    simp only [token_iff, value_iff none, nil_iff] at stocks
    obtain ⟨x, _, _, rfl, rfl, -, _, rfl, _, rfl, rfl, rfl⟩ := stocks
    exact ⟨loc, x.location, rfl, rfl, rfl⟩
  case after => exact fun m c' held => held.pop rfl

theorem library {b : Builtin} (held :
      At ok σ low (.token close :: (each true ns ++ .token opening :: .token loc :: items)) r c)
    (listed : b.isListed = true) (near : Loose ok ∨ (loc.Near ∧ close.Near)) :
    Leaves ok σ low items r (Checker.library b ns (Location.span loc close)) c := by
  by_cases abs : b = .abs ∧ ∃ n, ns = [n]
  · obtain ⟨rfl, n, rfl⟩ := abs
    exact absolute held near
  have held : At ok σ low ((.token close ::
      (each true ns ++ [Pending.token opening, Pending.token loc])) ++ items) r c := by
    simpa using held
  refine construct (.library b ns (Location.span loc close)) []
    (.token close :: (each true ns ++ [Pending.token opening, Pending.token loc])) held ?_ ?_ listed
    trivial (near.imp_right fun near => ?_) fun none => covers_of_ends fun xs ls stocks => ?_
  · rw [handles_of_none rfl, handles_append, Pending.handles_each]
    rfl
  · simp [each]
  · simpa [Construction.locations] using near.1.span near.2
  · obtain ⟨_, rfl, inner⟩ := token_iff.mp stocks
    obtain ⟨ys, zs, ms, ks, rfl, rfl, args, below⟩ := inner.split
    simp only [token_iff, nil_iff] at below
    obtain ⟨_, rfl, _, rfl, rfl, rfl⟩ := below
    refine ⟨loc, close, by simp, rfl, ?_⟩
    have place : libraryPlace b ys.reverse (Location.span loc close) = Location.span loc close := by
      unfold libraryPlace
      split
      next x single =>
        refine absurd ⟨rfl, c.session.tree.handle x.index, ?_⟩ abs
        rw [args.each_inv none, single]
        rfl
      next => rfl
    simpa [Construction.place] using place

/-- The function that a spelling stands for is a known one. -/
theorem builtin (held : At ok σ low items r c) (spelling : Int) :
    Checker.Ends ok (Checker.builtin? spelling) c fun out c' => c' = c ∧
    ∀ b ∈ out, b.isListed = true := by
  refine .step (lookup_run spelling c) (.pure ⟨rfl, fun b found => ?_⟩)
  split at found
  · cases found
  · next named =>
    cases found
    simp only [Bool.or_eq_true, not_or, bne_iff_ne, ne_eq, not_not] at named
    exact held.builtins _ named.2

/-- The bound of an array that is left open. -/
theorem emptyBound (held : At ok σ low (.token close :: .token opening :: items) r c)
    (near : Loose ok ∨ (opening.Near ∧ close.Near)) :
    Leaves ok σ low items r (Checker.emptyBound (Location.span opening close)) c := by
  apply take [] [.token close, .token opening] (fun _ => Location.span opening close) held
  case live => exact fun n mem => by cases mem
  case values => simp
  case covers =>
    intro none
    refine covers_of_ends fun xs ls stocks => ?_
    simp only [token_iff, nil_iff] at stocks
    obtain ⟨_, rfl, _, rfl, rfl, rfl⟩ := stocks
    exact ⟨opening, close, rfl, rfl, rfl⟩
  case rule =>
    intro xs rest same carries _
    obtain rfl : xs = [] := List.map_eq_nil_iff.mp same.symm
    exact Checker.emptyBound_ends held.fine carries (near.imp_right fun near => near.1.span near.2)

end At

end BilingualC
