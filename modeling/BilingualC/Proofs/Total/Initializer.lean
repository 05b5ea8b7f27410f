import Mathlib
import BilingualC.Proofs.Lowering.Initializer
import BilingualC.Proofs.Total.Construction

/-!
# Initializers are accepted when they match, and pushed leaf by leaf

An initializer under the root is checked against a type that has a name. The check says what is
wrong exactly when the initializer does not match the type (`TypeTable.Fits`). One that matches
stands in its place with each list typed and each integer for a floating place converted
(`TypeTable.Becomes`); the generator then pushes its leaves in the order in which they are written,
and before the elements of a list the length, if the list was matched with an array
(`Lowering.pushes`).
-/

namespace BilingualC

open Guarded Rose

namespace Checker

variable {c : Checker} {pool : List Rose} {x : Rose} {want : TypeId}

/-- The generator, in a session that has gone on since an initializer was checked, pushes it by the
steps for its parts. -/
theorem initializer_run {types : TypeTable} (operand : types.Operand (fun _ => False) x)
    {g : Lowering} (continues : types.Continues g.session.types)
    (has : g.session.tree.Has x) {depth : Nat} (low : x.height ≤ depth) :
    (Lowering.initializer depth (g.session.tree.handle x.index)).run g =
    ((Lowering.pushes types depth x).forM (Lowering.Part.push g.session.tree)).run g :=
  Lowering.initializer_agrees has (fun l mem =>
    (operand l mem).type.isArray_continue continues) low g rfl

/-- The check of an initializer against a type comes to an end, and it says what is wrong exactly
when the initializer does not match the type. If it matches, each list has taken on the type that it
was matched with, each integer for a floating place was converted, and all else is as it was.
Whenever the generator meets the initializer, it takes exactly the steps for the lengths of the
lists of arrays and for the leaves, in the order in which they are written. -/
theorem convert_accepts_iff_fits (stocked : c.Stocked (x :: pool))
    (named : c.session.types.Named want) : ∃ problem t x', convert want
    (c.session.tree.handle x.index) c = .ok ((t.handle x'.index, problem), c.withTree t) ∧
    (problem = none ↔ c.session.types.Fits want x) ∧
    (problem = none → (c.withTree t).Stocked (x' :: pool) ∧ c.session.types.Becomes want x x' ∧
      ∀ g : Lowering, g.session.tree.Has x' → c.session.types.Continues g.session.types → ∀ depth,
      x'.height ≤ depth → (Lowering.initializer depth (g.session.tree.handle x'.index)).run g =
      ((Lowering.pushes c.session.types depth x').forM (Lowering.Part.push g.session.tree)).run
      g) := by
  obtain ⟨others, carries⟩ := stocked.carries
  obtain ⟨⟨⟨n, problem⟩, _⟩, done, t, x', rfl, swaps, operand, -, -, fits, becomes⟩ :=
    (convert_fits_ends stocked.fine named carries (stocked.operands x List.mem_cons_self)).answer
  obtain rfl : n = t.handle x'.index := swaps.handle
  refine ⟨problem, t, x', done, fits,
    fun none => ⟨⟨stocked.fine.withTree t, ⟨others, swaps.carries⟩, ?_⟩, becomes none, ?_⟩⟩
  · exact List.forall_mem_cons.mpr ⟨operand,
      fun y mem => stocked.operands y (List.mem_cons_of_mem x mem)⟩
  · exact fun g has continues depth low => initializer_run operand continues has low

/-- A list of one integer is for an array of characters. -/
theorem convert_accepts_iff_fits_characters : ∃ c x t x', c.Stocked [x] ∧
    c.session.types.Named c.stringType ∧ x.kind = .initializer ∧ x.children.length = 1 ∧
    convert c.stringType (c.session.tree.handle x.index) c = .ok ((t.handle x'.index, none),
      c.withTree t) ∧ (c.withTree t).Stocked [x'] ∧ c.session.types.Becomes c.stringType x x' := by
  obtain ⟨c, -, stocked⟩ := stocked_new none true
  obtain ⟨others, carries⟩ := stocked.carries
  obtain ⟨t, i, -, one, -⟩ := build_ends carries .literal ⟨0, 1⟩ [TypeId.int, Category.value.word,
    7] (show ([] : List Handle).filter (· ≠ .broken) = ([] : List Rose).map fun k =>
    c.session.tree.handle k.index from rfl)
  set y : Rose := .node i Kind.literal.number ([TypeId.int, Category.value.word, 7] ++ [0, 1]) []
  have whole : t.handle i ≠ .broken := one.ne_broken (r := y) List.mem_cons_self
  have live : [t.handle i].filter (· ≠ .broken) = [y].map fun k => t.handle k.index :=
    List.filter_eq_self.mpr (by simpa using whole)
  have one : (c.withTree t).session.tree.Carries ([y] ++ others) := one
  obtain ⟨u, j, -, list, -⟩ :=
    build_ends one .initializer ⟨0, 1⟩ [TypeId.undefined, Category.value.word] live
  set x : Rose :=
    .node j Kind.initializer.number ([TypeId.undefined, Category.value.word] ++ [0, 1]) [y]
  have near (r : Rose) (place : r.location = ⟨0, 1⟩) : Loose (fun _ => False) ∨ r.location.Near :=
    .inr (place ▸ ⟨by decide, by decide⟩)
  have int : c.session.types.Named TypeId.int := stocked.fine.scalar (by decide) (by decide)
  have undefined : c.session.types.Named TypeId.undefined :=
    stocked.fine.scalar (by decide) (by decide)
  have leaf : c.session.types.Operand (fun _ => False) y :=
    TypeTable.operand_of_node ⟨rfl, Nat.le_succ 4, fun _ => le_refl 5, int, near y rfl⟩ nofun
  have operand : c.session.types.Operand (fun _ => False) x :=
    TypeTable.operand_of_node ⟨rfl, le_refl 4, nofun, undefined,
      near x rfl⟩ (List.forall_mem_singleton.mpr leaf)
  have holds : (c.withTree u).Stocked [x] :=
    ⟨stocked.fine.withTree u, ⟨others, list⟩, List.forall_mem_singleton.mpr operand⟩
  have string := stocked.fine.string
  obtain ⟨problem, v, x', run, fits, good⟩ := convert_accepts_iff_fits holds string.named
  have accepted : problem = none :=
    fits.mpr (.list rfl (.array string.isArray string.element) (.cons (.value (show Kind.literal ≠
    .initializer by decide) (show TypeId.Takes TypeId.char TypeId.int from rfl)) .nil))
  subst accepted
  exact ⟨c.withTree u, x, v, x', holds, string.named, rfl, rfl, run, (good rfl).1, (good rfl).2.1⟩

end Checker

end BilingualC
