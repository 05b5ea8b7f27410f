import Mathlib
import BilingualC.Proofs.Reading.State

/-!
# Nodes above what waits

A rule for expressions takes the items of its operands, with the tokens around them, from the stack
and puts one expression there; other nodes are built in the same way. The location of the new node
covers the part of the row that is taken off (`Checker.Covers`), which is so whenever it goes from
the first to the last location there.
-/

namespace BilingualC

open Guarded Rose Grammar Pending

variable {ok : Fault → Prop}

namespace Pending

theorem handles_append (a b : List Pending) : handles (a ++ b) = handles b ++ handles a := by
  simp [handles]

theorem handles_tree (expression : Bool) (n : Handle) (items : List Pending) :
    handles (.tree expression n :: items) = handles items ++ [n] := by
  rw [handles, filterMap_tree, List.reverse_cons, handles]

theorem handles_of_none {item : Pending} (noTree : item.handle? = none) (items : List Pending) :
    handles (item :: items) = handles items := by
  rw [handles, List.filterMap_cons_none noTree, handles]

end Pending

namespace Checker

/-- The location that a node gets above some items lies in their part of the row, and so do the
locations of the trees there. -/
def Covers (ok : Fault → Prop) (c : Checker) (ruler : List Location) (ops : List Pending)
    (stop : Nat → Prop) (place : List Rose → Location) : Prop :=
  ∀ xs ls, Stocks ok c ops xs ls → ∀ p q, stop q → Row ruler p q ls.reverse → ∃ i j, p ≤ i ∧ j < q ∧
    (place xs.reverse).LiesOn ruler i j ∧ Row ruler i (j + 1) (xs.reverse.map Rose.location)

variable {c : Checker} {ruler : List Location} {ops : List Pending} {stop : Nat → Prop}
    {place : List Rose → Location}

/-- A location from the first to the last one of the items covers them. -/
theorem covers_of_ends (ends : ∀ xs ls, Stocks ok c ops xs ls →
      ∃ first last, ls.reverse.head? = some first ∧ ls.head? = some last ∧
      place xs.reverse = Location.span first last) : c.Covers ok ruler ops stop place := by
  intro xs ls stocks p q _ row
  obtain ⟨first, last, starts, stops, same⟩ := ends xs ls stocks
  obtain ⟨rest, rfl⟩ : ∃ rest, ls = last :: rest := ⟨ls.tail, (List.cons_head?_tail stops).symm⟩
  obtain ⟨more, all⟩ : ∃ more, (last :: rest).reverse = first :: more :=
    ⟨_, (List.cons_head?_tail starts).symm⟩
  obtain ⟨i, j, low, high, lies, whole⟩ := (all ▸ row).bounds (by rw [← all, List.reverse_cons])
  refine ⟨i, j, low, high, same ▸ lies, whole.sublist ?_⟩
  rw [← all, List.map_reverse, List.reverse_sublist]
  exact stocks.locations

end Checker

namespace At

variable {σ : Course} {low : Nat} {items : List Pending} {r : Reader} {c : Checker} {loc : Location}

/-- A rule for expressions takes operands that are not broken from the stack. -/
theorem take (post ops : List Pending) (place : List Rose → Location)
    {m : Check Handle} (held : At ok σ low (post ++ (ops ++ items)) r c)
    (live : ∀ n ∈ handles ops, n ≠ .broken) (values : ∀ n, Pending.node n ∉ ops)
    (covers : c.errors = 0 → c.Covers ok σ.ruler ops (fun _ => True) place)
    (rule : ∀ xs rest, handles ops = c.handles xs →
      c.session.tree.Carries (xs ++ rest) → (∀ x ∈ xs, c.session.types.Operand ok x) →
      Checker.Ends ok m c (c.Gives ok rest (c.Typed σ.names (place xs) xs))) :
    Checker.Ends ok m c fun n c' => At ok σ low (post ++ .value n :: items) r c' := by
  obtain ⟨xs, ls, rest, p, q, stocks, carries, clean, close⟩ := replace post ops held
  have same : handles ops = c.handles xs.reverse := by
    rw [← stocks.filter_handles fun x mem => carries.ne_broken (by simp [mem])]
    exact (List.filter_eq_self.mpr fun n mem => by simpa using live n mem).symm
  refine (rule _ rest same carries fun x mem =>
    stocks.operands values x (by simpa using mem)).mono fun n c' gives =>
    close c' true n gives.fine (gives.onward.moves gives.keeps) ?_
  rcases gives.outcome with ⟨rfl, one, junk, after⟩ | ⟨none, x, rfl, after, operand, typed⟩
  · exact .inl ⟨rfl, by omega, junk, after⟩
  · refine .inr ⟨x, rfl, after, fun _ => operand, fun clear => ?_⟩
    obtain ⟨row, -, order⟩ := clean (none ▸ clear)
    obtain ⟨i, j, first, last, lies, inside⟩ := covers (none ▸ clear) xs ls stocks p q trivial row
    have inOrder : ∀ o ∈ xs.reverse, c.InOrder ok σ.ruler σ.names o :=
      fun o mem => order o (by simpa using mem)
    refine ⟨⟨operand.tame, ?_, typed.spreads.nested _ i j lies inside fun o mem =>
      (inOrder o mem).nested⟩, .single first (typed.spreads.location ▸ lies) last⟩
    rw [gives.onward.stringType]
    exact typed.ruled fun o mem => (inOrder o mem).ruled

/-- A rule for expressions takes its operands from the stack. -/
theorem construct (k : Construction) (post ops : List Pending)
    (held : At ok σ low (post ++ (ops ++ items)) r c) (operands : handles ops = k.operands)
    (values : ∀ n, Pending.node n ∉ ops) (listed : k.Listed)
    (named : k.Named σ.names) (near : Loose ok ∨ ∀ loc ∈ k.locations, loc.Near)
    (covers : c.errors = 0 → c.Covers ok σ.ruler ops (fun _ => True) k.place) :
    Checker.Ends ok k.run c fun n c' => At ok σ low (post ++ .value n :: items) r c' := by
  have mine {n : Handle} (mem : n ∈ k.operands) : n ∈ handles (post ++ (ops ++ items)) := by
    rw [handles_append, handles_append, operands]
    simp [mem]
  cases broken : k.operands.any c.session.tree.isBroken with
  | true =>
    obtain ⟨n, mem, isBroken⟩ := List.any_eq_true.mp broken
    obtain ⟨m, run, passed⟩ := Checker.construction_broken mem isBroken
    have none : m = .broken := by
      rcases passed with rfl | rfl
      · rfl
      · rw [(held.isBroken (mine mem)).1] at isBroken
        simpa using isBroken
    subst none
    exact .run run (giveUp post ops held (held.errors_of_broken (mine mem) isBroken))
  | false =>
    refine take post ops k.place held (fun n mem missing =>
      ?_) values covers fun xs rest same carries operand => ?_
    · have notBroken := List.any_eq_false.mp broken n (operands ▸ mem)
      rw [missing, Arena.isBroken_broken] at notBroken
      exact notBroken rfl
    · exact Checker.construction_gives held.fine carries operand listed named near (operands ▸ same)

/-- A node that is no expression is built above some items. -/
theorem build (ops : List Pending) {kind : Kind} {children : List Handle}
    (held : At ok σ low (ops ++ items) r c) (statement : kind.isExpression = false)
    (known : Kind.ofNumber kind.number = kind) (args : List Int)
    (same : children.filter (· ≠ .broken) = (handles ops).filter (· ≠ .broken)) (loc : Location)
    (covers : c.errors = 0 → c.Covers ok σ.ruler ops (· = r.pos) fun _ => loc) :
    Checker.Ends ok (Checker.build kind loc args children) c fun n c' =>
    At ok σ low (.node n :: items) r c' := by
  obtain ⟨xs, ls, rest, p, q, stocks, carries, clean, close⟩ := replace [] ops held
  rw [stocks.filter_handles fun x mem => carries.ne_broken (by simp [mem])] at same
  obtain ⟨t, i, run, after, keeps⟩ := Checker.build_ends carries kind loc args same
  set x : Rose := .node i kind.number (args ++ [loc.start, loc.stop]) xs.reverse
  have located : x.location = loc := location_of_args rfl
  have isKind : x.kind.isExpression = false := by
    rw [show x.kind = kind from known]
    exact statement
  refine .run run (close _ false _ (held.fine.withTree t)
    ((Checker.onward_withTree c t).moves keeps) (.inr ⟨x, rfl, after, nofun, fun none => ?_⟩))
  obtain ⟨row, top, order⟩ := clean none
  obtain ⟨i, j, first, last, lies, inside⟩ := covers none xs ls stocks p q (top rfl) row
  have inOrder : ∀ o ∈ xs.reverse, c.InOrder ok σ.ruler σ.names o :=
    fun o mem => order o (by simpa using mem)
  refine ⟨⟨?_, ?_, ?_⟩, .single first (located ▸ lies) last⟩
  · exact TypeTable.tame_of_node isKind fun o mem => (inOrder o mem).tame
  · exact Session.ruled_of_node (Session.rule_of_statement isKind) fun o mem =>
      (inOrder o mem).ruled
  · exact nested_of_node (located ▸ lies) inside fun o mem => (inOrder o mem).nested

/-- The range from a token on the stack to the token before the reader covers what is above it. -/
theorem covers_spanFrom (held : At ok σ low items r c) (more : List Pending) (start : Location) :
    c.Covers ok σ.ruler (more ++ [.token start]) (· = r.pos) fun _ =>
    Location.span start r.previous.loc := by
  rintro xs ls stocks p _ rfl row
  obtain ⟨ys, zs, ms, ks, rfl, rfl, above, below⟩ := stocks.split
  simp only [Stocks.token_iff, Stocks.nil_iff] at below
  obtain ⟨_, rfl, rfl, rfl⟩ := below
  rw [List.reverse_append] at row
  obtain ⟨i, j, first, starts, after⟩ := row
  have stop := after.le
  have order := starts.1
  refine ⟨i, r.pos - 1, first, by omega,
    starts.span (.single (held.reader.ruler_previous (by omega))) (by omega), ?_⟩
  have inside : Row σ.ruler i r.pos ms.reverse := after.widen (by omega) (le_refl _)
  rw [show r.pos - 1 + 1 = r.pos by omega, List.append_nil, List.map_reverse]
  exact inside.sublist (List.reverse_sublist.mpr above.locations)

/-- A node that is no expression goes from a token to the token before the reader. -/
theorem compound (kind : Kind) (children : List Handle) (more : List Pending) {start : Location}
    (held : At ok σ low (more ++ .token start :: items) r c) (statement : kind.isExpression = false)
    (known : Kind.ofNumber kind.number = kind) (args : List Int)
    (same : children.filter (· ≠ .broken) = (handles more).filter (· ≠ .broken)) : Checker.Ends ok
    (Checker.build kind (Location.span start r.previous.loc) args children) c fun n c' =>
      At ok σ low (.node n :: items) r c' := by
  refine build (more ++ [.token start]) (by simpa using held) statement known args ?_ _ fun _ =>
    held.covers_spanFrom more start
  rw [same, handles_append]
  rfl

/-! ## Reports -/

theorem report (held : At ok σ low items r c) (near : Loose ok ∨ loc.Near) (d : Diagnostic) :
    Checker.Ends ok (Checker.report loc d) c fun _ c' => (∃ j, c' = c.withJournal j) ∧
    At ok σ low items r c' ∧ c'.errors ≠ 0 := by
  refine (Checker.report_ends held.fine near d).mono fun _ c' ⟨j, same, adds⟩ => ?_
  subst same
  have one : (c.withJournal j).errors = c.errors + 1 := Checker.errors_withJournal adds
  have onward := Checker.onward_withJournal adds
  exact ⟨⟨j, rfl⟩,
    held.step (held.fine.withJournal adds) rfl onward.later rfl (by omega) id, by omega⟩

/-- A rule that reports an error gives a broken node. -/
theorem refuse (more : List Pending) (held : At ok σ low (more ++ items) r c)
    (near : Loose ok ∨ loc.Near) (d : Diagnostic)
    (expression : Bool) : Checker.Ends ok (Checker.refuse loc d) c fun n c' =>
    At ok σ low (.tree expression n :: items) r c' :=
  (held.report near d).bind fun _ _ ⟨_, after, error⟩ => .pure (giveUp [] more after error)

theorem warn (held : At ok σ low items r c)
    (near : Loose ok ∨ loc.Near) (w : Warning) (d : Diagnostic) :
    Checker.Ends ok (Checker.warn w loc d) c fun _ c' => At ok σ low items r c' := by
  refine (Checker.warn_quiet held.fine near w d).mono fun _ c' quiet => ?_
  obtain ⟨j, rfl⟩ := quiet.same
  exact held.step quiet.fine rfl quiet.onward.later rfl (le_of_eq quiet.errors.symm) id

/-! ## Operands that may be broken -/

section Broken

variable {m : Check Handle} {n : Handle} {expression : Bool} (more : List Pending)
    (held : At ok σ low (more ++ items) r c)

include held

/-- A rule that demands nodes that are not broken gives a broken node otherwise. -/
theorem unlessAnyBroken {ns : List Handle} (inside : ∀ n ∈ ns, n ∈ handles more)
    (rule : Checker.Ends ok m c fun n c' => At ok σ low (.tree expression n :: items) r c') :
    Checker.Ends ok (do if ← Checker.anyBroken ns then return .broken else m) c fun n c' =>
      At ok σ low (.tree expression n :: items) r c' := by
  refine .step (a := ns.any c.session.tree.isBroken) rfl ?_
  split
  next broken =>
    obtain ⟨n, mem, isBroken⟩ := List.any_eq_true.mp broken
    exact .pure (giveUp [] more held (held.errors_of_broken
      (by rw [handles_append]; exact List.mem_append_right _ (inside n mem)) isBroken))
  next => exact rule

theorem unlessBroken (inside : n ∈ handles more) (rule : c.session.tree.isBroken n = false →
      Checker.Ends ok m c fun n c' => At ok σ low (.tree expression n :: items) r c') :
    Checker.Ends ok (do if ← Checker.isBroken n then return .broken else m) c fun n c' =>
      At ok σ low (.tree expression n :: items) r c' := by
  refine .step (Checker.isBroken_run n c) ?_
  split
  next broken =>
    exact .pure (giveUp [] more held
      (held.errors_of_broken (by rw [handles_append]; exact List.mem_append_right _ inside) broken))
  next live => exact rule (by simpa using live)

end Broken

/-- An expression that is not broken is a tree under the root. -/
theorem operand (held : At ok σ low items r c) {n : Handle} (mem : Pending.value n ∈ items)
    (live : c.session.tree.isBroken n = false) : ∃ x, n = c.session.tree.handle x.index ∧
    c.session.tree.Has x ∧ c.session.types.Operand ok x := by
  obtain ⟨xs, ls, junk, stocks, carries, -⟩ := held.waits
  obtain rfl | ⟨x, inside, named, operand⟩ := stocks.value_mem mem
  · rw [Arena.isBroken_broken] at live
    cases live
  · exact ⟨x, named, carries.has (List.mem_append_left junk inside), operand⟩

end At

end BilingualC
