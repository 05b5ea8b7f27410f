import Mathlib
import BilingualC.Proofs.Lexeme.Next

/-!
# Numerals

A numeral without a point and an exponent is a row of digits, behind the prefix of a radix or
without one. While its digits are taken in, the accumulator is the value of the digits so far, as
long as this is an integer of the language, and then stays at one more than the largest one
(`Accumulator.Counts`). So the accumulator is a small number at any time, and no word is too short
for it (`next_accumulate`).

Main result: `Session.takeScan_numeral`, for digits of any number.
-/

namespace BilingualC

namespace Lexeme

variable {features : Features} {front digits rest : List Char} {radix pos n : Nat} {d : Char}
    {acc : Accumulator}

/-! ## Values of digits -/

/-- The value of digits in a radix; the first one is the highest. -/
def valueOf (radix : Nat) (digits : List Char) : Nat :=
  Nat.ofDigits radix (digits.map digitValue).reverse

theorem valueOf_append (radix : Nat) (digits : List Char) (d : Char) :
    valueOf radix (digits ++ [d]) = valueOf radix digits * radix + digitValue d := by
  simp only [valueOf, List.map_append, List.map_cons, List.map_nil, List.reverse_append,
    List.reverse_cons, List.reverse_nil, List.nil_append, List.cons_append, Nat.ofDigits_cons]
  ring

theorem exactValue_eq (digits : List Char) : exactValue digits = valueOf 10 digits := by
  induction digits using List.reverseRecOn with
  | nil => rfl
  | append_singleton digits d ih =>
    rw [valueOf_append, ← ih]
    simp [exactValue]

/-! ## The accumulator -/

/-- What an accumulator is after digits of a value. -/
structure Accumulator.Counts (acc : Accumulator) (n : Nat) : Prop where
  value : acc.value.toNat = min n (largestInt + 1)
  overflow : acc.overflow = decide (largestInt < n)

theorem Accumulator.counts_start : start.Counts 0 := ⟨rfl, rfl⟩

/-- One more digit of a radix does not outgrow the word. -/
theorem Accumulator.Counts.toNat_next (counts : acc.Counts n)
    (small : radix ≤ 16) (valid : digitValue d < radix) :
    (acc.next radix (digitValue d)).toNat = acc.value.toNat * radix + digitValue d := by
  have size : UInt64.size = 18446744073709551616 := rfl
  have largest : largestInt = 2147483647 := rfl
  have low : acc.value.toNat ≤ largestInt + 1 := counts.value ▸ Nat.min_le_right _ _
  have product : acc.value.toNat * radix ≤ (largestInt + 1) * 16 := Nat.mul_le_mul low small
  have base : radix.toUInt64.toNat = radix := UInt64.toNat_ofNat_of_lt' (by omega)
  have digit : (digitValue d).toUInt64.toNat = digitValue d := UInt64.toNat_ofNat_of_lt' (by omega)
  rw [largest] at product
  rw [Accumulator.next, UInt64.toNat_add, UInt64.toNat_mul, base, digit,
    Nat.mod_eq_of_lt (show acc.value.toNat * radix < 2 ^ 64 by omega), Nat.mod_eq_of_lt (by omega)]

theorem Accumulator.Counts.push (counts : acc.Counts n) (some : 0 < radix)
    (small : radix ≤ 16) (valid : digitValue d < radix) :
    (acc.push radix (digitValue d)).Counts (n * radix + digitValue d) := by
  have next := counts.toNat_next small valid
  have flag := counts.overflow
  have grows : n ≤ n * radix := Nat.le_mul_of_pos_right n some
  have stays : largestInt + 1 ≤ (largestInt + 1) * radix := Nat.le_mul_of_pos_right _ some
  have past : largestInt.toUInt64 < acc.next radix (digitValue d) ↔
    largestInt < n * radix + digitValue d := by
    rw [UInt64.lt_iff_toNat_lt, next, counts.value]
    change largestInt < _ ↔ _
    rcases Nat.le_total n largestInt with inside | outside
    · rw [Nat.min_eq_left (by omega)]
    · rcases Nat.eq_or_lt_of_le outside with rfl | outside
      · rw [Nat.min_eq_left (by omega)]
      · rw [Nat.min_eq_right (by omega)]
        exact iff_of_true (by omega) (by omega)
  unfold Accumulator.push
  by_cases large : largestInt < n * radix + digitValue d
  · rw [if_pos (past.mpr large)]
    have kept : (largestInt + 1).toUInt64.toNat = largestInt + 1 := rfl
    exact ⟨kept.trans (Nat.min_eq_right large).symm, by simp [large]⟩
  · rw [if_neg (mt past.mp large)]
    refine ⟨?_, by simp only [flag, large, decide_false, decide_eq_false_iff_not]; omega⟩
    rw [next, counts.value, Nat.min_eq_left (by omega), Nat.min_eq_left (by omega)]

/-- The accumulator counts the digits that were taken in. -/
theorem accumulate_counts (some : 0 < radix) (small : radix ≤ 16)
    (valid : ∀ d ∈ digits, digitValue d < radix) :
    (accumulate radix digits).Counts (valueOf radix digits) := by
  induction digits using List.reverseRecOn with
  | nil => exact Accumulator.counts_start
  | append_singleton digits d ih =>
    obtain ⟨before, last⟩ := List.forall_mem_append.mp valid
    rw [valueOf_append, accumulate, List.foldl_append]
    exact (ih before).push some small (last d (List.mem_singleton_self d))

/-! ## Digits and what ends them -/

theorem isDigit_of_value (low : digitValue d < 10) : isDigit d = true := by
  by_contra other
  have apart : isDigit d = false := by simpa using other
  simp only [digitValue, apart, Bool.false_eq_true, if_false] at low
  split at low
  · omega
  · split at low <;> omega

theorem value_of_isDigit (digit : isDigit d = true) : digitValue d < 10 := by
  rw [digitValue, if_pos digit]
  simp only [isDigit, Bool.and_eq_true, decide_eq_true_eq, show '0'.toNat = 48 from rfl,
    show '9'.toNat = 57 from rfl] at digit ⊢
  omega

/-- A digit of a radix may continue a word. -/
theorem isWordChar_of_value (low : digitValue d < 16) : isWordChar d = true := by
  unfold digitValue at low
  split at low
  next digit => simp [isWordChar, digit]
  next =>
    have alpha (inside : ('a'.toNat ≤ d.toNat ∧ d.toNat ≤ 'z'.toNat) ∨
        ('A'.toNat ≤ d.toNat ∧ d.toNat ≤ 'Z'.toNat)) : isWordChar d = true := by
      have small : d.toNat < 0x80 := by
        simp only [show 'z'.toNat = 122 from rfl, show 'Z'.toNat = 90 from rfl] at inside
        omega
      have letter : d.isAlpha = true := by
        simp only [Char.isAlpha, Char.isUpper, Char.isLower, Bool.or_eq_true, Bool.and_eq_true,
          decide_eq_true_eq]
        exact inside.symm
      simp [isWordChar, isLetter_ascii small, letter]
    split at low
    next inside => exact alpha (.inl (by simpa using inside))
    next =>
      split at low
      next inside => exact alpha (.inr (by simpa using inside))
      next => omega

theorem not_letter_of_digit (digit : isDigit d = true) : isLetter d = false := by
  obtain ⟨n, rfl, low, high⟩ : ∃ n, d = Char.ofNat n ∧ 48 ≤ n ∧ n ≤ 57 := by
    refine ⟨d.toNat, (Char.ofNat_toNat d).symm, ?_⟩
    simpa [isDigit] using digit
  interval_cases n <;> decide

/-- The letters that mark a radix after a zero. -/
def radixMarks : List (Char × Nat) :=
  [('x', 16), ('X', 16), ('o', 8), ('O', 8), ('b', 2), ('B', 2), ('d', 10), ('D', 10)]

theorem radixOf?_eq_some_iff {c : Char} : radixOf? c = some radix ↔ (c, radix) ∈ radixMarks := by
  simp only [radixOf?, radixMarks, List.mem_cons, Prod.mk.injEq, List.not_mem_nil]
  grind

/-- What stands in front of the digits of a radix. -/
inductive Fronted (features : Features) : List Char → Nat → Prop
  | plain : Fronted features [] 10
  | marked {mark : Char} {radix : Nat} (on : features.radixPrefixes = true)
      (mem : (mark, radix) ∈ radixMarks) : Fronted features ['0', mark] radix

/-- Characters that go on with a number: letters and digits behind a prefix; digits, a point and a
mark of an exponent behind decimal digits, and behind a single zero the mark of a radix. -/
def Continues (features : Features) (front digits : List Char) (c : Char) : Prop :=
  if front.isEmpty then
    isDigit c = true ∨ c = '.' ∨ isExponentMark c = true ∨
      (features.radixPrefixes = true ∧ digits = ['0'] ∧ ∃ radix, (c, radix) ∈ radixMarks)
  else isWordChar c = true

/-! ## Numbers -/

/-- Decimal digits that neither a point nor an exponent follows. -/
theorem scanDecimal_digits (all : ∀ d ∈ digits, isDigit d = true)
    (ends : ∀ c ∈ rest.head?, isDigit c = false ∧ c ≠ '.' ∧ isExponentMark c = false) :
    scanDecimal ⟨pos, digits ++ rest⟩ = wholeNumber pos ⟨pos + digits.length, rest⟩
    (String.ofList digits) (accumulate 10 digits) (Decimal.value ⟨digits, [], false, []⟩) [] := by
  have run := spanWhile_append pos all fun c next => (ends c next).1
  have fraction : scanFraction ⟨pos + digits.length, rest⟩ = none := by
    unfold scanFraction
    split
    next more shape => exact absurd rfl (ends '.' (congrArg List.head? shape)).2.1
    next => rfl
  have exponent : scanExponent pos ⟨pos + digits.length, rest⟩ = none := by
    unfold scanExponent
    split
    next => rfl
    next mark more shape => rw [(ends mark (congrArg List.head? shape)).2.2, if_neg (by simp)]
  have text :
    sourceText ⟨pos, digits ++ rest⟩ ⟨pos + digits.length, rest⟩ = String.ofList digits := by
    simp [sourceText]
  simp only [scanDecimal, run, fractionEnd, exponentEnd, fraction, exponent, Option.map_none,
    Option.getD_none, text, Option.isSome_none, Bool.or_self, Bool.false_eq_true, if_false]

/-- Digits of a radix behind its mark. -/
theorem scanRadix_digits {mark : Char} (some : digits ≠ []) (small : radix ≤ 16)
    (valid : ∀ d ∈ digits, digitValue d < radix) (stops : Stops isWordChar rest) :
    scanRadix ⟨pos, '0' :: mark :: (digits ++ rest)⟩ mark radix ⟨pos + 2, digits ++ rest⟩ =
    wholeNumber pos ⟨pos + (digits.length + 2), rest⟩ (String.ofList ('0' :: mark :: digits))
    (accumulate radix digits) (floatDigits radix digits) [] := by
  have run := spanWhile_append (pos + 2) (fun d mem =>
    isWordChar_of_value ((valid d mem).trans_le small)) stops
  have kept : digits.filter (fun d => decide (digitValue d < radix)) = digits :=
    List.filter_eq_self.mpr fun d mem => decide_eq_true (valid d mem)
  have good : ∀ place, badDigits radix place digits = [] := by
    clear run kept some
    induction digits with
    | nil => exact fun _ => rfl
    | cons d more ih =>
      obtain ⟨first, others⟩ := List.forall_mem_cons.mp valid
      intro place
      rw [badDigits, if_neg (by omega), ih others]
  have sum : pos + 2 + digits.length = pos + (digits.length + 2) := by omega
  have text : sourceText ⟨pos, '0' :: mark :: (digits ++ rest)⟩ ⟨pos + (digits.length + 2), rest⟩ =
      String.ofList ('0' :: mark :: digits) := by
    simp [sourceText]
  rw [sum] at run
  simp only [scanRadix, run, kept, good, text, List.isEmpty_iff, some, if_false, List.append_nil]

/-- A number without a mark of a radix behind a zero is a decimal one. -/
theorem scanNumber_decimal {marks : Bool} {cs : List Char}
    (none : marks = true → ∀ mark more, cs = '0' :: mark :: more → radixOf? mark = none) :
    scanNumber marks ⟨pos, cs⟩ = scanDecimal ⟨pos, cs⟩ := by
  unfold scanNumber
  split
  next mark more shape =>
    cases marks with
    | false => rfl
    | true => simp only [if_true, none rfl mark more shape]
  next => rfl

/-- A numeral is read as a whole number. -/
theorem next_numeral (pos : Nat) (fronted : Fronted features front radix)
    (some : digits ≠ []) (valid : ∀ d ∈ digits, digitValue d < radix)
    (ends : ∀ c ∈ rest.head?, ¬ Continues features front digits c) : ∃ float, next features ⟨pos,
      front ++ digits ++ rest⟩ = wholeNumber pos ⟨pos + (front ++ digits).length, rest⟩
    (String.ofList (front ++ digits)) (accumulate radix digits) float [] := by
  -- a number starts here in either case, so what is left is how the number is read
  have starts {a : Char} {cs : List Char} (digit : isDigit a = true) :
      next features ⟨pos, a :: cs⟩ = scanNumber features.radixPrefixes ⟨pos, a :: cs⟩ := by
    obtain ⟨layout, solid⟩ := not_layout_of_word (a := a) (by simp [isWordChar, digit])
    refine next_of_scanAt (skipBlanks_still layout (not_commented solid) _) ?_
    rw [scanAt, if_neg (by simp [not_letter_of_digit digit]),
      if_pos (by simp [startsNumber, digit])]
  cases fronted with
  | plain =>
    have all : ∀ d ∈ digits, isDigit d = true := fun d mem => isDigit_of_value (valid d mem)
    have apart : ∀ c ∈ rest.head?, isDigit c = false ∧ c ≠ '.' ∧ isExponentMark c = false :=
      fun c next => by
      have other := ends c next
      simp only [Continues, List.isEmpty_nil, if_true, not_or] at other
      exact ⟨by simpa using other.1, other.2.1, by simpa using other.2.2.1⟩
    have none : features.radixPrefixes = true → ∀ mark more, digits ++ rest = '0' :: mark :: more →
      radixOf? mark = none := by
      intro on mark more shape
      by_contra marked
      obtain ⟨radix, marked⟩ := Option.ne_none_iff_exists'.mp marked
      have mem := radixOf?_eq_some_iff.1 marked
      rcases digits with _ | ⟨zero, _ | ⟨second, others⟩⟩
      · exact some rfl
      · obtain ⟨rfl, behind⟩ := List.cons.inj shape
        have other := ends mark (congrArg List.head? behind)
        simp only [Continues, List.isEmpty_nil, if_true, not_or] at other
        exact other.2.2.2 ⟨on, trivial, radix, mem⟩
      · obtain rfl : second = mark := (List.cons.inj (List.cons.inj shape).2).1
        have letters : ∀ entry ∈ radixMarks, isDigit entry.1 = false := by decide
        exact Bool.false_ne_true ((letters _ mem).symm.trans (all second (by simp)))
    refine ⟨_, Eq.trans ?_ ((scanNumber_decimal none).trans (scanDecimal_digits all apart))⟩
    obtain ⟨a, more, rfl⟩ := List.exists_cons_of_ne_nil some
    exact starts (all a List.mem_cons_self)
  | @marked mark radix on mem =>
    have small : radix ≤ 16 := by
      have listed : ∀ entry ∈ radixMarks, entry.2 ≤ 16 := by decide
      exact listed _ mem
    have stops : Stops isWordChar rest := fun c next => by
      have other := ends c next
      simpa [Continues] using other
    have number : scanNumber features.radixPrefixes ⟨pos, '0' :: mark :: (digits ++ rest)⟩ =
        scanRadix ⟨pos, '0' :: mark :: (digits ++ rest)⟩ mark radix ⟨pos + 2, digits ++ rest⟩ := by
      simp only [scanNumber, on, if_true, radixOf?_eq_some_iff.2 mem]
    exact ⟨_, (starts (by decide)).trans (number.trans (scanRadix_digits some small valid stops))⟩

end Lexeme

namespace Session

open Lexeme

/-- **Integer literals are exact or flagged.** Digits of any number, with any zeros in front of
them, are read to their end and no further. If their value is an integer of the language, it is that
of the token, and nothing is noted. Otherwise the token is a floating literal, and one warning is
reported if it is switched on. While digits are taken in, the word for their value never wraps
around. -/
theorem takeScan_numeral (s : Session) {features : Features} {front digits rest : List Char}
    {radix pos : Nat}
    (fronted : Fronted features front radix) (some : digits ≠ [])
    (valid : ∀ d ∈ digits, digitValue d < radix)
    (ends : ∀ c ∈ rest.head?, ¬ Continues features front digits c) (roomy : s.journal.Roomy)
    (small : ((pos + (front ++ digits).length : Nat) : Int) ≤ 65536 * largestBlock) :
    let scan := next features ⟨pos, front ++ digits ++ rest⟩
    let text := String.ofList (front ++ digits)
    let loc : Location := ⟨pos, (pos + (front ++ digits).length : Nat)⟩
    scan.next = ⟨pos + (front ++ digits).length, rest⟩ ∧
      (valueOf radix digits ≤ 2147483647 → s.takeScan features scan =
      .ok (s, { Token.bare .intLiteral loc with text, intValue := valueOf radix digits })) ∧
      (2147483647 < valueOf radix digits → ∃ j float, s.takeScan features scan = .ok
      ({ s with journal := j }, { Token.bare .floatLiteral loc with text, floatValue := float }) ∧
      s.journal.Adds j (if (s.options.map (·.warnings.get .overflow)).getD true
      then [⟨.warning, loc, .plain .intOverflow⟩] else [])) ∧
      ∀ before d after, digits = before ++ d :: after →
      ((accumulate radix before).next radix (digitValue d)).toNat =
      (accumulate radix before).value.toNat * radix + digitValue d := by
  intro scan text loc
  obtain ⟨float, read⟩ := next_numeral pos fronted some valid ends
  have bounds : 0 < radix ∧ radix ≤ 16 := by
    have listed : ∀ entry ∈ radixMarks, 0 < entry.2 ∧ entry.2 ≤ 16 := by decide
    cases fronted with
    | plain => decide
    | marked on mem => exact listed _ mem
  -- the accumulator counts exactly and stands still one past the largest integer
  have counts := accumulate_counts bounds.1 bounds.2 valid
  have overflow (flag : Bool) (same : decide (largestInt < valueOf radix digits) = flag) :
    (accumulate radix digits).overflow = flag :=
    counts.overflow.trans same
  refine ⟨?_, ?_, ?_, ?_⟩
  · rw [show scan = _ from read, wholeNumber_next]
  · intro inside
    have value : (accumulate radix digits).value.toNat = valueOf radix digits :=
      counts.value.trans (Nat.min_eq_left (Nat.le_succ_of_le inside))
    rw [show scan = _ from read, wholeNumber,
      overflow false (decide_eq_false (Nat.not_lt.mpr inside)), if_neg Bool.false_ne_true, value]
    rfl
  · intro past
    set stop := pos + (front ++ digits).length
    have whole : scan = ⟨.floating text float, pos, stop,
      [⟨Option.some .overflow, loc, .plain .intOverflow⟩], ⟨stop, rest⟩⟩ := by
      rw [show scan = _ from read, wholeNumber, overflow true (decide_eq_true past), if_pos rfl]
      rfl
    have near : loc.Near := by
      have start : (pos : Int) ≤ (stop : Nat) := Int.ofNat_le.mpr (Nat.le_add_right _ _)
      exact ⟨⟨Int.natCast_nonneg pos, start.trans small⟩, Int.natCast_nonneg stop, small⟩
    obtain ⟨j, taken, adds⟩ :=
      takeNote_ok (n := ⟨Option.some .overflow, loc, .plain .intOverflow⟩) roomy near
    refine ⟨j, float, ?_, ?_⟩
    · rw [whole, takeScan, takeNotes_cons, taken]
      rfl
    · convert adds using 1
      unfold Note.report? options
      dsimp only
      split <;> rfl
  -- the word is bounded by the step before, so one more digit does not wrap around
  · intro before d after whole
    subst whole
    obtain ⟨first, last⟩ := List.forall_mem_append.mp valid
    exact (accumulate_counts bounds.1 bounds.2 first).toNat_next bounds.2
      (last d List.mem_cons_self)

/-- The first integer past the largest one, in hexadecimal digits with two zeros in front of
them. -/
theorem takeScan_numeral_past :
    let s := Session.new 0 (.new none false)
    let features := Features.initial
    let digits := ['0', '0', '8', '0', '0', '0', '0', '0', '0', '0']
    let scan := next features ⟨0, ['0', 'x'] ++ digits ++ [';']⟩
    Fronted features ['0', 'x'] 16 ∧ digits ≠ [] ∧ (∀ d ∈ digits, digitValue d < 16) ∧
      (∀ c ∈ [';'].head?, ¬ Continues features ['0', 'x'] digits c) ∧ s.journal.Roomy ∧
      ((0 + (['0', 'x'] ++ digits).length : Nat) : Int) ≤ 65536 * largestBlock ∧
      scan.next = ⟨12, [';']⟩ ∧ 2147483647 < valueOf 16 digits ∧
      ∃ j float, s.takeScan features scan = .ok ({ s with journal := j },
      { Token.bare .floatLiteral ⟨0, 12⟩ with text := "0x0080000000", floatValue := float }) ∧
      s.journal.Adds j [⟨.warning, ⟨0, 12⟩, .plain .intOverflow⟩] := by
  intro s features digits scan
  have fronted : Fronted features ['0', 'x'] 16 := .marked rfl List.mem_cons_self
  have valid : ∀ d ∈ digits, digitValue d < 16 := by simp [digits, digitValue, isDigit]
  have ends : ∀ c ∈ [';'].head?, ¬ Continues features ['0', 'x'] digits c := by
    rintro c ⟨⟩
    show ¬ isWordChar ';' = true
    decide
  have roomy : s.journal.Roomy := .inr (by simp [s, Session.new, Journal.new])
  have small : ((0 + (['0', 'x'] ++ digits).length : Nat) : Int) ≤ 65536 * largestBlock := by decide
  have past : 2147483647 < valueOf 16 digits := by decide +kernel
  obtain ⟨read, -, flagged, -⟩ := takeScan_numeral s fronted (by decide) valid ends roomy small
  exact ⟨fronted, by decide, valid, ends, roomy, small, read, past, flagged past⟩

end Session

end BilingualC
