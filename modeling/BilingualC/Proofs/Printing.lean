import Mathlib
import BilingualC.Proofs.Total.Initializer

/-!
# Calls that print by a format

A format is a sequence of pieces: characters that stand for themselves, doubled percent signs, and a
percent sign before the letter of a conversion. A call of `printf` is accepted exactly if its first
argument is such a format, with no more conversions than can be printed, and each other argument is
what its conversion prints. An accepted call generates the values of its arguments and one
instruction, whose operand is the number of words of all arguments but the format.

Main result: `Checker.printf_accepts_iff`, for every call in every state of the checker.
-/

namespace BilingualC

open Guarded Rose

namespace Checker

/-! ## Formats -/

/-- The letters of the conversions that print something. -/
def Printed.letters : Printed → List Char
  | .integer => ['i', 'd', 'c', 'ц', 'л']
  | .floating => ['f', 'в']
  | .text => ['s', 'с']

theorem printed?_eq_some_iff {letter : Char} {p : Printed} : printed? letter = some p ↔
    letter ∈ p.letters := by
  rw [printed?]
  split
  next integer =>
    simp only [Bool.or_eq_true, beq_iff_eq] at integer
    rcases integer with (((rfl | rfl) | rfl) | rfl) | rfl <;> cases p <;> decide
  next =>
    split
    next floating =>
      simp only [Bool.or_eq_true, beq_iff_eq] at floating
      rcases floating with rfl | rfl <;> cases p <;> decide
    next =>
      split
      next text =>
        simp only [Bool.or_eq_true, beq_iff_eq] at text
        rcases text with rfl | rfl <;> cases p <;> decide
      next => cases p <;> simp_all [Printed.letters]

/-- A piece of a format. -/
inductive Piece where
  | plain (c : Char) (other : c ≠ '%')
  | percent
  | conversion (k : Conversion) (known : k.letter ∈ k.printed.letters)

namespace Piece

/-- How a piece is written. -/
def text : Piece → List Char
  | plain c _ => [c]
  | percent => ['%', '%']
  | conversion k _ => ['%', k.letter]

/-- What a piece converts, if it converts something. -/
def conversion? : Piece → Option Conversion
  | plain _ _ | percent => none
  | conversion k _ => some k

end Piece

/-- A text is a format with some conversions. -/
def IsFormat (cs : List Char) (list : List Conversion) : Prop :=
  ∃ pieces : List Piece, cs = pieces.flatMap Piece.text ∧ list = pieces.filterMap Piece.conversion?

theorem isFormat_nil : IsFormat [] [] := ⟨[], rfl, rfl⟩

theorem IsFormat.cons {cs : List Char} {list : List Conversion} (format : IsFormat cs list)
    (piece : Piece) : IsFormat (piece.text ++ cs) (piece.conversion?.toList ++ list) := by
  obtain ⟨pieces, rfl, rfl⟩ := format
  refine ⟨piece :: pieces, rfl, ?_⟩
  cases piece <;> rfl

theorem not_percent_mem_letters (p : Printed) : '%' ∉ p.letters := by cases p <;> decide

/-- A format with too many conversions is refused, any other one is read. -/
theorem conversionsFrom_pieces (pieces : List Piece) {count : Nat}
    (few : count + (pieces.filterMap Piece.conversion?).length ≤ maxPrinted) :
    conversionsFrom count (pieces.flatMap Piece.text) = .ok (pieces.filterMap Piece.conversion?) :=
    by
  induction pieces generalizing count with
  | nil => rfl
  | cons piece pieces ih =>
    cases piece with
    | plain c other =>
      rw [List.flatMap_cons, Piece.text, List.singleton_append, conversionsFrom]
      · exact ih few
      all_goals simp [other]
    | percent => exact ih few
    | conversion k known =>
      obtain ⟨letter, p⟩ := k
      have notPercent : letter ≠ '%' := fun same => not_percent_mem_letters p (same ▸ known)
      have below : count + 1 + (pieces.filterMap Piece.conversion?).length ≤ maxPrinted := by
        simp only [List.filterMap_cons, Piece.conversion?, List.length_cons] at few
        omega
      have room : (count == maxPrinted) = false := by
        simp only [beq_eq_false_iff_ne]
        omega
      rw [List.flatMap_cons, Piece.text, List.cons_append, List.singleton_append, conversionsFrom]
      · simp only [printed?_eq_some_iff.2 known, room, Bool.false_eq_true, if_false, ih below]
        rfl
      · exact notPercent

/-- What is read was written piece by piece, with no more conversions than can be printed. -/
theorem isFormat_of_conversionsFrom {count : Nat} {cs : List Char} {list : List Conversion}
    (low : count ≤ maxPrinted) (read : conversionsFrom count cs = .ok list) : IsFormat cs list ∧
    count + list.length ≤ maxPrinted := by
  fun_induction conversionsFrom count cs generalizing list with
  | case1 =>
    cases read
    exact ⟨isFormat_nil, low⟩
  | case2 => cases read
  | case3 count cs ih =>
    obtain ⟨format, few⟩ := ih low read
    exact ⟨format.cons .percent, few⟩
  | case4 => cases read
  | case5 => cases read
  | case6 count letter cs _ p known many ih =>
    obtain ⟨more, rest, rfl⟩ : ∃ more, conversionsFrom (count + 1) cs = .ok more ∧
      ⟨letter, p⟩ :: more = list := by
      cases found : conversionsFrom (count + 1) cs with
      | error d => simp [found, Except.map] at read
      | ok more => exact ⟨more, rfl, by simpa [found, Except.map] using read⟩
    have less : count ≠ maxPrinted := by simpa using many
    obtain ⟨format, few⟩ := ih (by omega) rest
    exact ⟨format.cons (.conversion ⟨letter, p⟩ (printed?_eq_some_iff.1 known)),
      by simp only [List.length_cons]; omega⟩
  | case7 count c cs lonely _ other ih =>
    obtain ⟨format, few⟩ := ih low read
    have plain : c ≠ '%' := by
      rintro rfl
      cases cs with
      | nil => exact lonely rfl rfl
      | cons letter cs => exact other letter cs rfl rfl
    exact ⟨format.cons (.plain c plain), few⟩

/-- The conversions of a text can be read exactly if it is a format with no more of them than can be
printed. -/
theorem conversions_eq_ok_iff {format : String} {list : List Conversion} :
    conversions format = .ok list ↔ IsFormat format.toList list ∧ list.length ≤ maxPrinted := by
  constructor
  · intro read
    obtain ⟨isFormat, few⟩ := isFormat_of_conversionsFrom (Nat.zero_le _) read
    exact ⟨isFormat, by omega⟩
  · rintro ⟨⟨pieces, same, rfl⟩, few⟩
    rw [conversions, same]
    exact conversionsFrom_pieces pieces (by omega)

/-! ## Arguments -/

/-- What a conversion prints: an integer, an arithmetic value or an array of characters. A list in
braces has no type yet; it is an array of characters if its elements are characters. -/
def Printed.Takes (types : TypeTable) (p : Printed) (x : Rose) : Prop :=
  if x.kind = .initializer then p = .text ∧ ∀ y ∈ x.children, types.Fits TypeId.char y
  else match p with
    | .integer => TypeId.isInteger x.exprType = true
    | .floating => TypeId.isArithmetic x.exprType = true
    | .text => types.isString x.exprType = .ok true

variable {ok : Fault → Prop} {c : Checker} {x : Rose} {args pool : List Rose} {k : Conversion}
    {loc : Location}

/-- There is one type of arrays of characters. -/
theorem isString_iff {types : TypeTable} {str id : TypeId}
    (string : types.Holds str (.array TypeId.char)) (named : types.Named id) :
    types.isString id = .ok true ↔ str = id := by
  constructor
  · intro isString
    rcases named.cases with ⟨-, low⟩ | ⟨r, holds⟩
    · simp [TypeTable.isString, TypeTable.isArray, TypeTable.form_of_scalar low,
        TypeTable.element_of_scalar low, pure, Except.pure, bind, Except.bind] at isString
    · rw [TypeTable.isString, holds.isArray, holds.element] at isString
      have both : (r.form == .array && r.element == TypeId.char) = true := Except.ok.inj isString
      cases r with
      | array e =>
        obtain rfl : e = TypeId.char := by simpa [TypeRecord.form, TypeRecord.element] using both
        exact string.eq_of_words holds
      | _ => simp [TypeRecord.form] at both
  · rintro rfl
    rw [TypeTable.isString, string.isArray, string.element]
    rfl

/-- No list in braces is a number. -/
theorem not_elements_scalar {types : TypeTable} {id : TypeId} (low : id ≤ 0) {count : Nat}
    {wanted : List TypeId} : ¬ types.Elements id count wanted := by
  have none := TypeTable.form_of_scalar (t := types) low
  rintro (⟨isStructure, -, -⟩ | ⟨isArray, -⟩)
  · simp [TypeTable.isStructure, none] at isStructure
  · simp [TypeTable.isArray, none] at isArray

/-- The arguments that fit the type of a conversion are those that it prints. -/
theorem fits_iff_takes (fine : c.Fine ok) (operand : c.session.types.Operand ok x) :
    c.session.types.Fits (k.type c.stringType) x ↔ k.printed.Takes c.session.types x := by
  obtain ⟨letter, p⟩ := k
  have string := fine.string
  by_cases list : x.kind = .initializer
  · unfold Printed.Takes
    rw [if_pos list]
    have unfit {id : TypeId} (low : id ≤ 0) : ¬ c.session.types.Fits id x := by
      rintro (⟨single, -⟩ | ⟨-, elements, -⟩)
      · exact single list
      · exact not_elements_scalar low elements
    cases p with
    | integer => exact iff_of_false (unfit (show TypeId.int ≤ 0 by decide)) (by simp)
    | floating => exact iff_of_false (unfit (show TypeId.float ≤ 0 by decide)) (by simp)
    | text =>
      have elements : c.session.types.Elements c.stringType x.children.length
        (List.replicate x.children.length TypeId.char) :=
        .array string.isArray string.element
      refine (TypeTable.fits_list list elements).trans ?_
      constructor
      · exact fun all => ⟨rfl, TypeTable.forall_of_replicate all⟩
      · rintro ⟨-, all⟩
        refine List.forall₂_iff_get.mpr ⟨List.length_replicate, fun i _ inside => ?_⟩
        simpa using all _ (List.getElem_mem inside)
  · unfold Printed.Takes
    rw [if_neg list, TypeTable.fits_value list]
    cases p with
    | integer => exact Iff.rfl
    | floating => exact Iff.rfl
    | text =>
      have derived {id : TypeId} (low : id ≤ 0) : c.stringType ≠ id :=
        fun same => absurd (same ▸ string.pos) (not_lt.mpr low)
      have other : TypeId.Takes c.stringType x.exprType ↔ c.stringType = x.exprType := by
        simp [TypeId.Takes, TypeId.isFloating, TypeId.isInteger,
          derived (show TypeId.float ≤ 0 by decide),
          derived (show TypeId.int ≤ 0 by decide), derived (show TypeId.char ≤ 0 by decide)]
      exact other.trans (isString_iff string operand.node.type).symm

/-! ## Sizes -/

/-- An argument that was converted for printing is one word. -/
theorem sizeOf_matches (fine : c.Fine ok) (matching : Session.Matches (k.type c.stringType) x) :
    c.session.types.sizeOf x.exprType = .ok 1 := by
  have scalar {id : TypeId} (arithmetic : TypeId.isArithmetic id = true) :
    c.session.types.sizeOf id = .ok 1 := by
    simp only [TypeId.isArithmetic, TypeId.isInteger, TypeId.isFloating, Bool.or_eq_true,
      beq_iff_eq] at arithmetic
    rcases arithmetic with (rfl | rfl) | rfl <;> rfl
  have own : c.session.types.sizeOf (k.type c.stringType) = .ok 1 := by
    rw [Conversion.type]
    split
    · exact scalar rfl
    · exact scalar rfl
    · exact fine.string.sizeOf
  rcases suits_of_matches matching with ⟨-, floating⟩ | ⟨-, integer⟩ | same
  · exact scalar (by simp [TypeId.isArithmetic, floating])
  · exact scalar (by simp [TypeId.isArithmetic, integer])
  · exact same ▸ own

/-- Few small sizes are added without overflow. -/
theorem foldl_sizes {sizes : List Int} {sum : Int} (low : 0 ≤ sum)
    (each : ∀ n ∈ sizes, 0 ≤ n) (fits : sum + sizes.sum < 2 ^ 63) :
    sizes.foldl (fun sum size => wrap64 (sum + size)) sum = sum + sizes.sum := by
  induction sizes generalizing sum with
  | nil => simp
  | cons n sizes ih =>
    obtain ⟨first, others⟩ := List.forall_mem_cons.mp each
    have rest : 0 ≤ sizes.sum := List.sum_nonneg others
    rw [List.sum_cons] at fits ⊢
    rw [List.foldl_cons, wrap64_of_range (by omega) (by omega),
      ih (by omega) others (by omega), add_assoc]

end Checker

/-! ## Code -/

namespace Lowering

/-- The generator pushes the values of all arguments of a call of `printf`, then it emits the
instruction with the sizes of the arguments behind the format, added up. -/
theorem printf_agrees {s : Session} {r : Rose} (has : s.tree.Has r)
    (kind : r.kind = .builtin) (builtin : r.builtin = .printf)
    (valid : ∀ y ∈ r.children.drop 1, s.types.Valid y.exprType) (depth : Nat) :
    Agree s (value (depth + 2) (s.tree.handle r.index)) (do
      r.children.forM fun y => value depth (s.tree.handle y.index)
      emitOp .printf [((r.children.drop 1).map fun y => s.sizeOf y.exprType).foldl
        (fun sum size => wrap64 (sum + size)) 0]) := by
  have steady := (steadyRules depth).value
  have leaf (y : Rose) : Agree s (value depth (s.tree.handle y.index))
      ([Part.leaf depth y].forM (Part.push s.tree)) := by
    show Agree s _ (Part.push s.tree (.leaf depth y) >>= pure)
    rw [bind_pure]
    exact .refl s _
  have values :=
    Agree.forM_children has (value depth) (fun y => [Part.leaf depth y]) (fun y _ => leaf y) 0
  have leaves : (r.children.map (Part.leaf depth)).forM (Part.push s.tree) =
      r.children.forM fun y => value depth (s.tree.handle y.index) := List.forM_map
  rw [List.drop_zero, List.drop_zero, ← List.map_eq_flatMap, leaves] at values
  have sizes : Answers s ((((List.range r.children.length).drop 1).map Int.ofNat).mapM fun i => do
      sizeOf (← typeOf (← child (s.tree.handle r.index) i))) ((r.children.drop 1).map fun y =>
        s.sizeOf y.exprType) :=
    Answers.mapM_children has 1 fun y mem =>
      (Answers.typeOf (has.child (List.mem_of_mem_drop mem))).bind (.sizeOf (valid y mem))
  rw [value]
  refine .read (.typeOf has) (.read (.kindOf has) ?_)
  rw [kind]
  simp only
  rw [library]
  refine .read .tree (.read (.builtinOf has) (.read (.childNumbers has 0) ?_))
  rw [builtin]
  rw [← List.map_drop, List.drop_drop]
  exact values.bind (Steady.forM fun y => steady _) fun _ => .read sizes (.refl s _)

end Lowering

namespace Checker

variable {c : Checker} {args pool : List Rose} {loc : Location}

/-- The arguments of a call of `printf` that can be checked: a format with no more than twenty
conversions, and for each of them one more argument, which is what it prints. -/
structure FormatCall (c : Checker) (args : List Rose) (format : Rose) (values : List Rose)
    (list : List Conversion) : Prop where
  split : args = format :: values
  kind : format.kind = .string
  pieces : IsFormat (c.session.stringAt (format.arg 2)).toList list
  few : list.length ≤ 20
  count : values.length = list.length
  each : List.Forall₂ (fun k x => k.printed.Takes c.session.types x) list values

theorem printable_iff (fine : c.Fine ok)
    (operands : ∀ a ∈ args, c.session.types.Operand ok a) {list : List Conversion} :
    c.Printable args list ↔ ∃ format values, c.FormatCall args format values list := by
  have takes {values : List Rose} (inside : ∀ x ∈ values, x ∈ args) :
      List.Forall₂ (fun k x => c.session.types.Fits (k.type c.stringType) x) list values ↔
        List.Forall₂ (fun k x => k.printed.Takes c.session.types x) list values := by
    have same {k : Conversion} {x : Rose} (mem : x ∈ values) :
        c.session.types.Fits (k.type c.stringType) x ↔ k.printed.Takes c.session.types x :=
      fits_iff_takes fine (operands x (inside x mem))
    simp only [List.forall₂_iff_get]
    exact and_congr_right fun _ => forall₂_congr fun i _ => forall_congr' fun low =>
      same (List.get_mem values ⟨i, low⟩)
  constructor
  · rintro ⟨format, values, rfl, kind, -, read, fits⟩
    obtain ⟨pieces, few⟩ := conversions_eq_ok_iff.1 read
    exact ⟨format, values, rfl, kind, pieces, few, fits.length_eq.symm,
      (takes fun _ => List.mem_cons_of_mem format).mp fits⟩
  · rintro ⟨format, values, rfl, kind, pieces, few, count, each⟩
    exact ⟨format, values, rfl, kind, count ▸ few, conversions_eq_ok_iff.2 ⟨pieces, few⟩,
      (takes fun _ => List.mem_cons_of_mem format).mpr each⟩

/-- The code of a call of `printf`: the values of its arguments, then the instruction with the sizes
of those behind the format added up. -/
theorem printf_runs {list : List Conversion} {format : Rose} {ys : List Rose}
    (fine : c.Fine ok) (operand : c.session.types.Operand ok x) (kind : x.kind = .builtin)
    (builtin : x.builtin = .printf) (kids : x.children = format :: ys) (few : list.length ≤ 20)
    (matching : List.Forall₂ (fun k y => Session.Matches (k.type c.stringType) y) list ys)
    {g : Lowering}
    (has : g.session.tree.Has x) (continues : c.session.types.Continues g.session.types) :
    ∃ sizes, List.Forall₂ (fun y size => g.session.types.sizeOf y.exprType = .ok size) ys sizes ∧
    ∀ depth, (Lowering.value (depth + 2) (g.session.tree.handle x.index)).run g = (do
        (format :: ys).forM fun y => Lowering.value depth (g.session.tree.handle y.index)
        Lowering.emitOp .printf [sizes.sum]).run g := by
  have named {y : Rose} (mem : y ∈ ys) : c.session.types.Named y.exprType :=
    (operand.child (by simp [kids, mem])).node.type
  have size {y : Rose} (mem : y ∈ ys) : g.session.types.sizeOf y.exprType = .ok 1 := by
    obtain ⟨i, low, rfl⟩ := List.mem_iff_getElem.mp mem
    rw [(named mem).sizeOf_continue continues]
    exact sizeOf_matches fine (matching.get (matching.length_eq ▸ low) low)
  have words : (ys.map fun y => g.session.sizeOf y.exprType) = List.replicate ys.length 1 := by
    refine List.eq_replicate_iff.mpr ⟨List.length_map _, fun n mem => ?_⟩
    obtain ⟨y, inside, rfl⟩ := List.mem_map.mp mem
    simp only [Session.sizeOf, size inside]
  refine ⟨List.replicate ys.length 1, ?_, fun depth => ?_⟩
  · refine List.forall₂_iff_get.mpr ⟨List.length_replicate.symm, fun i low _ => ?_⟩
    simpa using size (List.getElem_mem low)
  · have sum : 0 + (List.replicate ys.length (1 : Int)).sum < 2 ^ 63 := by
      rw [List.sum_replicate, ← matching.length_eq]
      simp
      omega
    have positive : ∀ n ∈ List.replicate ys.length (1 : Int), 0 ≤ n :=
      fun n mem => by simp [List.eq_of_mem_replicate mem]
    have added := foldl_sizes (le_refl 0) positive sum
    have agrees := Lowering.printf_agrees has kind builtin
      (fun y mem => (named (by simpa [kids] using mem)).valid.continue continues) depth g rfl
    rw [agrees, kids, List.drop_one, List.tail_cons, words, added, zero_add]

/-- **A call of `printf` is checked by its format.** In every state of the checker, a call whose
arguments stand under the root comes to an end. It gives an expression exactly if the first argument
is a format with at most twenty conversions, and there is one more argument for each conversion,
which is what it prints; otherwise it gives a broken node and one error. The expression has the
format and what the conversions made of the other arguments below it. Whenever the generator meets
it, it generates the values of these, and then the instruction with the sizes of the arguments
behind the format added up. -/
theorem printf_accepts_iff (stocked : c.Stocked (args ++ pool)) (near : loc.Near) :
    ∃ n c', library .printf (c.handles args) loc c = .ok (n, c') ∧
    (c'.session.tree.isBroken n = false ↔
      ∃ format values list, c.FormatCall args format values list) ∧
    (c'.session.tree.isBroken n = true → c'.errors = c.errors + 1 ∧ c'.Stocked pool) ∧
    ∀ format values list, c.FormatCall args format values list → c'.errors = c.errors ∧
    ∃ x ys, n = c'.session.tree.handle x.index ∧ c'.Stocked (x :: pool) ∧
    x.kind = .builtin ∧ x.builtin = .printf ∧ x.children = format :: ys ∧
    List.Forall₂ (fun (p : Conversion × Rose) y =>
      c.session.types.Becomes (p.1.type c.stringType) p.2 y) (list.zip values) ys ∧
    ∀ g : Lowering, g.session.tree.Has x → c'.session.types.Continues g.session.types →
    ∃ sizes, List.Forall₂ (fun y size => g.session.types.sizeOf y.exprType = .ok size) ys sizes ∧
    ∀ depth, (Lowering.value (depth + 2) (g.session.tree.handle x.index)).run g = (do
      (format :: ys).forM fun y => Lowering.value depth (g.session.tree.handle y.index)
      Lowering.emitOp .printf [sizes.sum]).run g := by
  obtain ⟨others, carries⟩ := stocked.carries
  rw [List.append_assoc] at carries
  have operands : ∀ a ∈ args, c.session.types.Operand (fun _ => False) a :=
    fun a mem => stocked.operands a (List.mem_append_left _ mem)
  -- Names of fields play no part here.
  obtain ⟨⟨n, c'⟩, run, outcome⟩ :=
    (printf_fits_ends (fun _ _ => False) stocked.fine carries operands (.inr near)).answer
  obtain ⟨gives, refused⟩ : PrintOutcome _ (pool ++ others) args _ loc c n c' := outcome
  have run : library .printf (c.handles args) loc c = .ok (n, c') := by
    unfold library
    rw [bind_run (anyBroken_run args fun a mem => carries.has (List.mem_append_left _ mem))]
    exact run
  have remain : ∀ a ∈ pool, c'.session.types.Operand (fun _ => False) a := fun a mem =>
    (stocked.operands a (List.mem_append_right _ mem)).continue gives.onward.types
      gives.fine.regular.types
  refine ⟨n, c', run, ?_⟩
  obtain ⟨broken, errors, junk, after⟩
      | ⟨errors, x, rfl, after, operand, -, list, printable, prints⟩ :=
    gives.outcome
  · have none (list : List Conversion) : ¬ ∃ format values, c.FormatCall args format values list :=
      fun call => refused broken list ((printable_iff stocked.fine operands).mpr call)
    have order : (junk ++ (pool ++ others)).Perm (pool ++ (junk ++ others)) := by
      rw [← List.append_assoc, ← List.append_assoc]
      exact List.perm_append_comm.append_right others
    subst broken
    refine ⟨iff_of_false (by simp [Arena.isBroken_broken]) ?_, ?_, ?_⟩
    · rintro ⟨format, values, list, call⟩
      exact none list ⟨format, values, call⟩
    · exact fun _ => ⟨errors, gives.fine, ⟨_, after.perm order⟩, remain⟩
    · intro format values list call
      exact absurd ⟨format, values, call⟩ (none list)
  · have live := after.isBroken (r := x) List.mem_cons_self
    obtain ⟨format, values, call⟩ := (printable_iff stocked.fine operands).mp printable
    refine ⟨iff_of_true live ⟨format, values, list, call⟩, ?_, ?_⟩
    · intro broken
      simp [live] at broken
    intro format' values' list' call'
    -- The arguments can be split and the format can be read in one way only.
    obtain ⟨rfl, rfl⟩ := List.cons.inj (call.split.symm.trans call'.split)
    have read := conversions_eq_ok_iff.2 ⟨call.pieces, call.few⟩
    have read' := conversions_eq_ok_iff.2 ⟨call'.pieces, call'.few⟩
    obtain rfl : list = list' := Except.ok.inj (read.symm.trans read')
    obtain ⟨kind, builtin, format', values', ys, split, kids, matching, becomes⟩ := prints
    obtain ⟨rfl, rfl⟩ := List.cons.inj (call.split.symm.trans split)
    rw [← gives.onward.stringType] at matching
    have holds : c'.Stocked (x :: pool) :=
      ⟨gives.fine, ⟨others, after⟩, List.forall_mem_cons.mpr ⟨operand, remain⟩⟩
    refine ⟨errors, x, ys, rfl, holds, kind, builtin, kids, becomes, ?_⟩
    intro g has continues
    exact printf_runs gives.fine operand kind builtin kids call.few matching has continues

/-- A checker that knows one text more holds the same expressions. -/
theorem Stocked.withString (stocked : c.Stocked pool) (text : String) :
    (c.withSession (c.session.addString text).1).Stocked pool where
  fine := {
    regular := Session.Regular.congr (s := c.session) rfl rfl rfl stocked.fine.regular
    string := stocked.fine.string
    result := stocked.fine.result
    linked := stocked.fine.linked.imp_right (Session.Linked.congr (s := c.session) rfl rfl)
    tight := stocked.fine.tight.imp_right fun tight =>
      ⟨tight.short, tight.roomy, tight.places, tight.mentions⟩ }
  carries := stocked.carries
  operands := stocked.operands

/-- A character and a percent sign are printed. -/
theorem printf_accepts_iff_character : ∃ c format value n c', c.Stocked [format, value] ∧
    c.FormatCall [format, value] format [value] [⟨'c', .integer⟩] ∧
    library .printf (c.handles [format, value]) ⟨0, 1⟩ c = .ok (n, c') ∧
    c'.session.tree.isBroken n = false := by
  obtain ⟨c₀, -, stocked⟩ := stocked_new none true
  obtain ⟨c, index, stocked, known⟩ : ∃ c index, Stocked c [] ∧ c.session.stringAt index = "%c%%" :=
    ⟨_, c₀.session.strings.size, stocked.withString "%c%%",
      by simp [Checker.withSession, Session.addString, Session.stringAt, inTable]⟩
  obtain ⟨others, carries⟩ := stocked.carries
  have none (t : Arena) : ([] : List Handle).filter (· ≠ .broken) =
      ([] : List Rose).map fun k => t.handle k.index := rfl
  obtain ⟨t, i, -, one, -⟩ :=
    build_ends carries .literal ⟨0, 1⟩ [TypeId.int, Category.value.word, 65] (none _)
  set value : Rose :=
    .node i Kind.literal.number ([TypeId.int, Category.value.word, 65] ++ [0, 1]) []
  have one : (c.withTree t).session.tree.Carries ([] ++ (value :: others)) := one
  obtain ⟨u, j, -, two, -⟩ :=
    build_ends one .string ⟨0, 1⟩ [c.stringType, Category.value.word, index] (none t)
  set format : Rose :=
    .node j Kind.string.number ([c.stringType, Category.value.word, index] ++ [0, 1]) []
  have near (r : Rose) (place : r.location = ⟨0, 1⟩) : Loose (fun _ => False) ∨ r.location.Near :=
    .inr (place ▸ ⟨by decide, by decide⟩)
  have first : c.session.types.Operand (fun _ => False) format :=
    TypeTable.operand_of_node ⟨rfl, by simp [format], fun literal => (by cases literal),
      stocked.fine.string.named, near format rfl⟩ (List.forall_mem_nil _)
  have int : c.session.types.Named TypeId.int := stocked.fine.scalar (by decide) (by decide)
  have second : c.session.types.Operand (fun _ => False) value :=
    TypeTable.operand_of_node ⟨rfl, by simp [value], fun _ => by simp [value], int,
      near value rfl⟩ (List.forall_mem_nil _)
  have holds : (c.withTree u).Stocked ([format, value] ++ []) :=
    ⟨stocked.fine.withTree u, ⟨others, two⟩,
      List.forall_mem_cons.mpr ⟨first, List.forall_mem_singleton.mpr second⟩⟩
  have pieces : IsFormat (c.session.stringAt index).toList [⟨'c', .integer⟩] :=
    ⟨[.conversion ⟨'c', .integer⟩ (by decide), .percent], congrArg String.toList known, rfl⟩
  have call : (c.withTree u).FormatCall [format, value] format [value] [⟨'c', .integer⟩] :=
    ⟨rfl, rfl, pieces, by decide, rfl, .cons rfl .nil⟩
  obtain ⟨n, c', run, live, -⟩ :=
    printf_accepts_iff holds (show Location.Near ⟨0, 1⟩ from ⟨by decide, by decide⟩)
  exact ⟨c.withTree u, format, value, n, c', holds, call, run, live.mpr ⟨format, [value], _, call⟩⟩

end Checker

end BilingualC
