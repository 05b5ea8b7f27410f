import Mathlib
import BilingualC.Checker.Library
import BilingualC.Proofs.Checker.Expression

/-!
# Rules for library calls, checked

A library call takes its arguments, converted to what the function wants, from the stack. The
printing functions look at their arguments first and convert none or those behind the format.
-/

namespace BilingualC

open Std.Do

set_option mvcgen.warning false

theorem Builtin.ofNumber_number {b : Builtin} (listed : b.isListed = true) :
    ofNumber b.number = b := by
  cases b <;> first | rfl | cases listed

namespace Checker

open Rose

variable {c₀ c : Checker}

theorem builtinSpellings_listed : ∀ b ∈ builtinSpellings, b.1.isListed = true := by
  intro b mem
  obtain ⟨f, known, spelled⟩ := List.mem_flatMap.mp mem
  have all : ∀ f ∈ Builtin.all, f.isListed = true := by decide
  split at spelled
  · cases spelled
  · simp only [List.mem_cons, List.not_mem_nil, or_false] at spelled
    rcases spelled with rfl | rfl | rfl | rfl <;> exact all f known

/-! ## Signatures -/

/-- Arguments that were converted wait in the places of those that were given. -/
theorem ArgumentsConverted.effect {valid : Prop} {count : Nat} {args args' : List Handle}
    (converted : c₀.ArgumentsConverted valid count args (some args') c)
    (length : count = args.length)
    (sound : ∀ w trees, c₀.Stands w trees → valid) : c₀.Effect (exprs args) (exprs args') c := by
  obtain ⟨t, rfl, converted⟩ := converted
  rintro w base (dirty | ⟨_, stands, fits⟩)
  · exact .inl dirty
  · obtain ⟨trees, rest, rfl, upper, lower⟩ := fits_append.mp fits
    obtain ⟨trees', after, fitsAfter, kept⟩ :=
      converted w [] trees rest stands upper (sound w _ stands) length
    exact .inr ⟨trees' ++ rest, after,
      fits_append.mpr ⟨trees', rest, rfl, fitsAfter, lower.keep fun r _ => kept r.index⟩⟩

/-- The types that a signature mentions. -/
def Wanted.Valid (types : TypeTable) : Wanted → Prop
  | .type id => types.Valid id
  | .anyArray => True

@[spec] theorem matchArguments_spec (wanted : List Wanted) (args : List Handle) :
    ⦃fun c => ⌜c = c₀⌝⦄ matchArguments wanted args ⦃⇓? out c =>
    ⌜c₀.ArgumentsConverted (∀ x ∈ wanted, x.Valid c₀.session.types) wanted.length args out c⌝⦄ := by
  induction wanted generalizing args c₀ with
  | nil =>
    mvcgen [matchArguments]
    subst_vars
    exact argumentsConverted_nil _ (.inl rfl)
  | cons want wanted ih =>
    cases args with
    | nil =>
      mvcgen [matchArguments]
      subst_vars
      exact argumentsConverted_nil _ (.inr rfl)
    | cons arg args =>
      cases want with
      | anyArray =>
        mvcgen [matchArguments, locationOf, tree, typeOf, types, typeName, currentSession, ih]
        all_goals subst_vars
        next rest =>
          refine .cons ⟨_, rfl, fun w upper x lower stands named expr _ =>
            ⟨x, ⟨stands, named, fun _ => rfl⟩, expr⟩⟩ rest ?_
          exact fun valid x mem => valid x (List.mem_cons_of_mem _ mem)
      | type want =>
        mvcgen [matchArguments, locationOf, tree, ih]
        all_goals subst_vars
        next fine _ converted _ _ rest =>
          rw [fine] at converted
          obtain ⟨t, rfl, _⟩ := id converted
          exact .cons (converted.first fun valid =>
            valid _ List.mem_cons_self) rest fun valid x mem =>
            valid x (List.mem_cons_of_mem _ mem)

/-- A library call takes in its arguments. -/
@[spec] theorem libraryCall_spec (b : Builtin)
    (result : TypeId) (args : List Handle) (loc : Location) :
    ⦃fun c => ⌜c = c₀⌝⦄ libraryCall b result args loc ⦃⇓? n c => ⌜(c₀.Dirty → c.Dirty) ∧
    (b.isListed = true → result ≤ 0 → c₀.Effect (exprs args) [.expr n] c)⌝⦄ := by
  mvcgen [libraryCall]
  all_goals subst_vars
  intro built
  refine ⟨Built.dirty built, fun listed low => ?_⟩
  refine built.expr (by rw [handles_each, List.reverse_reverse]) rfl rfl
    fun w trees rest stands fits node kind args kids => ?_
  have isBuiltin : node.builtin = b := by
    rw [Rose.builtin, arg, args]
    exact Builtin.ofNumber_number listed
  refine ⟨.library kind (not_place_of_args args) (isBuiltin ▸ listed) fun x mem => ?_,
    valid_scalar low⟩
  exact (fits_each.mp fits).2 x (by simpa [kids] using mem)

/-! ## Printing -/

/-- What a conversion prints has a valid type. -/
theorem Conversion.valid_type {types : TypeTable} {stringType : TypeId}
    (string : types.Valid stringType) (conversion : Conversion) :
    types.Valid (conversion.type stringType) := by
  unfold Conversion.type
  split
  · exact valid_scalar (by decide)
  · exact valid_scalar (by decide)
  · exact string

@[spec] theorem printf_spec (args : List Handle) (loc : Location) :
    ⦃fun c => ⌜c = c₀⌝⦄ printf args loc ⦃⇓? n c => ⌜c₀.Effect (exprs args) [.expr n] c⌝⦄ := by
  mvcgen [printf, kindOf, tree, currentSession, payloadOf, locationOf]
  all_goals subst_vars
  case vc6 dirty => exact .of_dirty dirty
  case vc7 length _ _ _ _ _ converted _ _ =>
    rintro - call
    rw [bne_iff_ne, not_not] at length
    have effect :=
      converted.effect ((List.length_map _).trans length) fun w trees stands p mem => by
      obtain ⟨conversion, _, rfl⟩ := List.mem_map.mp mem
      exact conversion.valid_type stands.string
    rw [exprs_cons]
    refine (effect.frame [_]).trans ?_
    rw [← exprs_cons]
    exact call rfl (by decide)
  all_goals exact Effect.of_dirty

/-- Looking for a node leaves the state as it is if looking at one does. -/
theorem firstWith_spec {property : Handle → Check Bool}
    (quiet : ∀ n, ⦃fun c => ⌜c = c₀⌝⦄ property n ⦃⇓? _ c => ⌜c = c₀⌝⦄) (ns : List Handle) :
    ⦃fun c => ⌜c = c₀⌝⦄ firstWith property ns ⦃⇓? _ c => ⌜c = c₀⌝⦄ := by
  induction ns with
  | nil => mvcgen [firstWith]
  | cons n ns ih => mvcgen [firstWith, quiet, ih]

@[spec] theorem print_spec (args : List Handle) (loc : Location) :
    ⦃fun c => ⌜c = c₀⌝⦄ print args loc ⦃⇓? n c => ⌜c₀.Effect (exprs args) [.expr n] c⌝⦄ := by
  have first := @firstWith_spec c₀ (fun n => do return (← types).isPointer (← typeOf n))
    (fun n => by mvcgen [types, typeOf, tree])
  mvcgen [print, first, locationOf, tree]
  all_goals subst_vars
  case vc4 => exact fun _ call => call rfl (by decide)
  all_goals exact Effect.of_dirty

@[spec] theorem identifierCall_spec (b : Builtin) (args : List Handle) (loc : Location) :
    ⦃fun c => ⌜c = c₀⌝⦄ identifierCall b args loc ⦃⇓? n c => ⌜(c₀.Dirty → c.Dirty) ∧
    (b.isListed = true → c₀.Effect (exprs args) [.expr n] c)⌝⦄ := by
  have first :=
    @firstWith_spec c₀ (fun n => do return (← kindOf n) != .identifier || !(← isPlace n))
    (fun n => by mvcgen [kindOf, isPlace, tree])
  mvcgen [identifierCall, first, locationOf, tree]
  all_goals subst_vars
  case vc4 => exact fun dirty call => ⟨dirty, fun listed => call listed (by decide)⟩
  all_goals exact fun dirty => ⟨fun _ => dirty, fun _ => .of_dirty dirty⟩

/-! ## Calls -/

/-- The result of a library function is scalar. -/
theorem signature_result (stringType : TypeId) (b : Builtin) : (signature stringType b).1 ≤ 0 := by
  cases b <;> exact of_decide_eq_true rfl

/-- A signature mentions scalar types and the type of strings only. -/
theorem signature_valid {types : TypeTable} {stringType : TypeId} (string : types.Valid stringType)
    (b : Builtin) : ∀ x ∈ (signature stringType b).2, x.Valid types := by
  have float : types.Valid TypeId.float := valid_scalar (by decide)
  have int : types.Valid TypeId.int := valid_scalar (by decide)
  cases b <;> simp [signature, Wanted.Valid, string, float, int]

@[spec] theorem library_spec (b : Builtin) (args : List Handle) (loc : Location) :
    ⦃fun c => ⌜c = c₀⌝⦄ library b args loc ⦃⇓? n c => ⌜(c₀.Dirty → c.Dirty) ∧
    (b.isListed = true → c₀.Effect (exprs args) [.expr n] c)⌝⦄ := by
  mvcgen [library, anyBroken, tree]
  all_goals subst_vars
  case vc1 broken => exact ⟨id, fun _ => .of_anyBroken (by simp [handles_each]) broken⟩
  case vc2 | vc3 => exact fun effect => ⟨dirty_of_effects effect, fun _ => effect⟩
  case vc6 => exact fun effect => ⟨dirty_of_effects (effect (by simp)), fun _ => effect (by simp)⟩
  case vc9 dirty _ => exact ⟨fun _ => dirty, fun _ => .of_dirty dirty⟩
  case vc10 length _ _ converted _ _ _ =>
    rw [bne_iff_ne, not_not] at length
    intro dirty call
    refine ⟨?_, fun listed => (converted.effect length fun w trees stands =>
      signature_valid stands.string _).trans (call listed (signature_result _ _))⟩
    obtain ⟨t, rfl, -⟩ := converted
    exact dirty
  all_goals exact fun dirty => ⟨fun _ => dirty, fun _ => .of_dirty dirty⟩

end Checker

end BilingualC
