import Mathlib
import BilingualC.Proofs.Lexeme.Partition

/-!
# The next lexeme

What the next lexeme of a source is where no blank or comment stands in front of it, and where a run
of characters of a class ends. The lexemes of a source are the next one and those of the rest
(`scanAll_cons`).
-/

namespace BilingualC

namespace Lexeme

variable {features : Features} {chars rest : List Char} {pos : Nat} {a : Char} {cs : List Char}
    {scan : Scan}

/-! ## Behind blanks -/

/-- The next lexeme behind blanks, if there is one at once. -/
theorem next_behind {c : Cursor} {notes : List Note}
    (behind : skipBlanks features.lineComments c = (⟨pos, a :: cs⟩, notes)) :
    next features c = match scanAt features pos a cs with
      | some scan => { scan with notes := notes ++ scan.notes }
      | none =>
        let scan := next features ⟨pos + 1, cs⟩
        { scan with
          notes :=
            notes ++ errorNote pos (pos + 1) (.lettered .badCharacter a.toNat) :: scan.notes } := by
  have opened := next.eq_def features c
  rw [behind] at opened
  exact opened

theorem next_end {c : Cursor} {notes : List Note}
    (behind : skipBlanks features.lineComments c = (⟨pos, []⟩, notes)) :
    next features c = ⟨.endOfInput, pos, pos, notes, ⟨pos, []⟩⟩ := by
  have opened := next.eq_def features c
  rw [behind] at opened
  exact opened

/-- A lexeme at the start of a source, where no blank or comment stands, is the next one. -/
theorem next_of_scanAt
    (still : skipBlanks features.lineComments ⟨pos, a :: cs⟩ = (⟨pos, a :: cs⟩, []))
    (found : scanAt features pos a cs = some scan) : next features ⟨pos, a :: cs⟩ = scan := by
  have opened := next_behind still
  rw [found] at opened
  exact opened

/-- A source starts with a comment, or with what is one if line comments are allowed. -/
def Commented (cs : List Char) : Prop := ['/', '/'] <+: cs ∨ ['/', '*'] <+: cs

theorem skipBlanks_still (layout : isLayout a = false) (open_ : ¬ Commented (a :: cs))
    (lineComments : Bool) : skipBlanks lineComments ⟨pos, a :: cs⟩ = (⟨pos, a :: cs⟩, []) := by
  rw [skipBlanks]
  · simp [layout]
  · rintro more rfl rfl
    exact open_ (.inr ⟨more, rfl⟩)
  · rintro more rfl rfl
    exact open_ (.inl ⟨more, rfl⟩)

theorem not_commented (solid : a ≠ '/') : ¬ Commented (a :: cs) := by
  rintro (⟨more, start⟩ | ⟨more, start⟩) <;> cases start <;> exact solid rfl

/-! ## Runs of characters -/

theorem isLetter_ascii (small : a.toNat < 0x80) : isLetter a = (a.isAlpha || a == '_') := by
  rw [isLetter, Text.isScriptLetter, if_pos small]

/-- Letters and digits are no blanks. -/
theorem not_layout_of_word (word : isWordChar a = true) : isLayout a = false ∧ a ≠ '/' := by
  constructor
  · by_contra layout
    simp only [isLayout, Bool.not_eq_false, Bool.or_eq_true, beq_iff_eq] at layout
    rcases layout with ((((rfl | rfl) | rfl) | rfl) | rfl) | rfl <;> exact absurd word (by decide)
  · rintro rfl
    exact absurd word (by decide)

/-- A source does not go on with a character of a class. -/
def Stops (p : Char → Bool) (rest : List Char) : Prop := ∀ c ∈ rest.head?, p c = false

/-- A run of characters of a class ends in front of one that is not of the class. -/
theorem spanWhile_append (pos : Nat) {p : Char → Bool}
    (all : ∀ c ∈ chars, p c = true) (stops : Stops p rest) :
    spanWhile p ⟨pos, chars ++ rest⟩ = (chars, ⟨pos + chars.length, rest⟩) := by
  have ends : rest.takeWhile p = [] ∧ rest.dropWhile p = rest := by
    cases rest with
    | nil => exact ⟨rfl, rfl⟩
    | cons c more => simp [stops c rfl]
  simp only [spanWhile, List.takeWhile_append_of_pos all, List.dropWhile_append_of_pos all, ends,
    List.append_nil]

/-! ## Rows of lexemes -/

/-- What a scan says besides where the source goes on. -/
def row (scan : Scan) : Lexeme × Location × List Note :=
  (scan.lexeme, ⟨scan.start, scan.stop⟩, scan.notes)

/-- The end of the input at an offset. -/
def ending (pos : Nat) : Lexeme × Location × List Note := (.endOfInput, ⟨pos, pos⟩, [])

theorem next_nil (features : Features) (pos : Nat) :
    next features ⟨pos, []⟩ = ⟨.endOfInput, pos, pos, [], ⟨pos, []⟩⟩ := by
  rw [next, skipBlanks]

theorem scanAll_nil (features : Features) (pos : Nat) :
    (scanAll features ⟨pos, []⟩).map row = [ending pos] := by
  rw [scanAll, next_nil]
  rfl

theorem scanAll_cons {c : Cursor} (first : next features c = scan)
    (more : scan.lexeme.isEnd = false) :
    scanAll features c = scan :: scanAll features scan.next := by
  rw [scanAll, first]
  simp [more]

end Lexeme

end BilingualC
