import Mathlib
import BilingualC.Text.Quoted

/-!
# Quoted texts can be read back

What a quoted character is written as can be told apart from what follows it (`unquote?_quoteChar`),
so different texts are quoted differently (`quote_injective`), and no line ends inside a quoted
text.
-/

namespace BilingualC.Text

/-! ## Codes in base sixteen -/

/-- The value of a digit in base sixteen. -/
def hexDigit (c : Char) : Nat := if c.isDigit then c.toNat - 48 else c.toNat - 87

/-- The number that digits in base sixteen stand for. -/
def hexValue (digits : List Char) : Nat := digits.foldl (fun n c => 16 * n + hexDigit c) 0

theorem hexDigit_digitChar : ∀ d < 16, hexDigit (Nat.digitChar d) = d := by decide

theorem hexValue_concat (digits : List Char) (c : Char) :
    hexValue (digits ++ [c]) = 16 * hexValue digits + hexDigit c := by
  rw [hexValue, List.foldl_append, List.foldl_cons, List.foldl_nil, ← hexValue]

theorem hexValue_toDigits (n : Nat) : hexValue (Nat.toDigits 16 n) = n := by
  induction n using Nat.strongRecOn with
  | ind n ih =>
    rw [Nat.toDigits_eq_if (by decide)]
    split
    next small => simpa [hexValue] using hexDigit_digitChar n small
    next large =>
      rw [hexValue_concat, ih (n / 16) (by omega), hexDigit_digitChar _ (Nat.mod_lt n (by decide))]
      omega

/-- Zeros in front do not change the number. -/
theorem hexValue_hexPadded (width n : Nat) : hexValue (hexPadded width n) = n := by
  have zeros (k : Nat) (digits : List Char) :
    hexValue (List.replicate k '0' ++ digits) = hexValue digits := by
    induction k with
    | zero => rfl
    | succ k ih =>
      rw [List.replicate_succ, List.cons_append, hexValue, List.foldl_cons]
      exact ih
  rw [hexPadded, zeros, hexValue_toDigits]

theorem length_hexPadded {width n : Nat} (some : 0 < width) (small : n < 16 ^ width) :
    (hexPadded width n).length = width := by
  have short := (Nat.length_toDigits_le_iff (by decide) some).mpr small
  rw [hexPadded, List.length_append, List.length_replicate]
  omega

/-! ## Quoted characters -/

/-- Reads the code of a character with so many digits in base sixteen. -/
def codedChar (width : Nat) (cs : List Char) : Char × List Char :=
  (Char.ofNat (hexValue (cs.take width)), cs.drop width)

/-- Reads the first character of what stands between two double quotes. -/
def unquote? : List Char → Option (Char × List Char)
  | [] => none
  | c :: cs =>
    if c ≠ '\\' then some (c, cs)
    else match cs with
      | 'a' :: rest => some (Char.ofNat 7, rest)
      | 'b' :: rest => some (Char.ofNat 8, rest)
      | 'f' :: rest => some (Char.ofNat 12, rest)
      | 'n' :: rest => some (Char.ofNat 10, rest)
      | 'r' :: rest => some (Char.ofNat 13, rest)
      | 't' :: rest => some (Char.ofNat 9, rest)
      | 'v' :: rest => some (Char.ofNat 11, rest)
      | 'x' :: rest => some (codedChar 2 rest)
      | 'u' :: rest => some (codedChar 4 rest)
      | 'U' :: rest => some (codedChar 8 rest)
      | other :: rest => some (other, rest)
      | [] => none

theorem codedChar_hexPadded {width : Nat} {c : Char} (some : 0 < width)
    (small : c.toNat < 16 ^ width) (rest : List Char) :
    codedChar width (hexPadded width c.toNat ++ rest) = (c, rest) := by
  have length := length_hexPadded some small
  rw [codedChar, List.take_left' length, List.drop_left' length, hexValue_hexPadded,
    Char.ofNat_toNat]

theorem controlLetter?_eq_some {c letter : Char} (named : controlLetter? c = some letter) :
    (c.toNat, letter) ∈ [(7, 'a'), (8, 'b'), (12, 'f'), (10, 'n'), (13, 'r'), (9, 't'),
      (11, 'v')] := by
  unfold controlLetter? at named
  split at named <;> cases named <;> simp_all

/-- A quoted character is read back, whatever follows it. -/
theorem unquote?_quoteChar (c : Char) (rest : List Char) :
    unquote? (quoteChar '"' c ++ rest) = some (c, rest) := by
  unfold quoteChar
  split
  next marked =>
    rcases Bool.or_eq_true_iff.mp marked with quote | slash
    · obtain rfl : c = '"' := by simpa using quote
      rfl
    · obtain rfl : c = '\\' := by simpa using slash
      rfl
  next plain =>
    split
    next shown =>
      have other : c ≠ '\\' := fun slash => plain (by simp [slash])
      rw [List.singleton_append, unquote?.eq_def]
      exact if_pos other
    next hidden =>
      split
      next letter named =>
        have code : c = Char.ofNat c.toNat := (Char.ofNat_toNat c).symm
        have mem := controlLetter?_eq_some named
        simp only [List.mem_cons, Prod.mk.injEq, List.not_mem_nil, or_false] at mem
        rcases mem with ⟨n, rfl⟩ | ⟨n, rfl⟩ | ⟨n, rfl⟩ | ⟨n, rfl⟩ | ⟨n, rfl⟩ | ⟨n, rfl⟩ | ⟨n, rfl⟩
          <;> rw [code, n] <;> rfl
      next unnamed =>
        split
        next low =>
          have small : c.toNat < 16 ^ 2 := by
            simp only [Bool.or_eq_true, decide_eq_true_eq, beq_iff_eq] at low
            omega
          exact congrArg some (codedChar_hexPadded (by decide) small rest)
        next =>
          split
          next small => exact congrArg some (codedChar_hexPadded (by decide) small rest)
          next =>
            have small : c.toNat < 16 ^ 8 := c.val.toNat_lt.trans_le (by decide)
            exact congrArg some (codedChar_hexPadded (by decide) small rest)

/-- What a character is quoted as does not begin with the mark. -/
theorem head?_quoteChar (c : Char) (rest : List Char) :
    (quoteChar '"' c ++ rest).head? ≠ some '"' := by
  unfold quoteChar
  split
  next => simp
  next plain =>
    split
    next =>
      have other : c ≠ '"' := fun mark => plain (by simp [mark])
      simpa using other
    next =>
      split
      next => simp
      next => split <;> [simp; (split <;> simp)]

/-- Texts that are quoted in the same way are the same. -/
theorem flatMap_quoteChar_injective {cs ds : List Char}
    (same : cs.flatMap (quoteChar '"') ++ ['"'] = ds.flatMap (quoteChar '"') ++ ['"']) :
    cs = ds := by
  induction cs generalizing ds with
  | nil =>
    cases ds with
    | nil => rfl
    | cons d ds =>
      rw [List.flatMap_cons, List.append_assoc] at same
      exact absurd (congrArg List.head? same.symm) (head?_quoteChar d _)
  | cons c cs ih =>
    cases ds with
    | nil =>
      rw [List.flatMap_cons, List.append_assoc] at same
      exact absurd (congrArg List.head? same) (head?_quoteChar c _)
    | cons d ds =>
      simp only [List.flatMap_cons, List.append_assoc] at same
      have first := congrArg unquote? same
      rw [unquote?_quoteChar, unquote?_quoteChar, Option.some_inj, Prod.mk.injEq] at first
      rw [first.1, ih first.2]

theorem quote_injective {s t : String} (same : quote s = quote t) : s = t := by
  have chars := String.ofList_inj.mp same
  rw [quoteChars, quoteChars] at chars
  exact String.toList_inj.mp (flatMap_quoteChar_injective (List.cons.inj chars).2)

/-! ## Lines -/

theorem not_newLine_of_mem_toDigits {n : Nat} : '\n' ∉ Nat.toDigits 16 n := by
  induction n using Nat.strongRecOn with
  | ind n ih =>
    have digit : ∀ d < 16, '\n' ≠ Nat.digitChar d := by decide
    rw [Nat.toDigits_eq_if (by decide)]
    split
    next small => simp [digit n small]
    next large => simp [ih (n / 16) (by omega), digit _ (Nat.mod_lt n (by decide))]

theorem newLine_not_mem_hexPadded (width n : Nat) : '\n' ∉ hexPadded width n := by
  simp [hexPadded, not_newLine_of_mem_toDigits]

/-- No character is quoted by a line end. -/
theorem newLine_not_mem_quoteChar (c : Char) : '\n' ∉ quoteChar '"' c := by
  unfold quoteChar
  split
  next marked =>
    have other : '\n' ≠ c := by rintro rfl; revert marked; decide
    simpa using other
  next =>
    split
    next shown =>
      have other : '\n' ≠ c := by rintro rfl; revert shown; decide +kernel
      simpa using other
    next =>
      split
      next letter named =>
        have mem := controlLetter?_eq_some named
        have other : '\n' ≠ letter := by rintro rfl; simp at mem
        simpa using other
      next =>
        split <;> [simp [newLine_not_mem_hexPadded]; (split <;> simp [newLine_not_mem_hexPadded])]

theorem newLine_not_mem_quote (s : String) : '\n' ∉ (quote s).toList := by
  simp [quote, quoteChars, newLine_not_mem_quoteChar]

end BilingualC.Text
