import Mathlib
import BilingualC.Proofs.Lexeme.Next

/-!
# String literals

A text is written between quotes, with some of its characters escaped. Written texts with only
blanks and comments between them are read as one string literal: the scanner gives every text back
(`scanPiece_quoted`), passes over what stands between them (`Spacing.skips`), and goes on with the
next quote.

Main result: `Session.tokenize_quoted`.
-/

namespace BilingualC

namespace Lexeme

variable {lineComments : Bool} {text cs rest : List Char} {pos start : Nat} {c : Char}

/-! ## How texts are written -/

/-- How a character of a text is written between quotes. -/
def escaped (c : Char) : List Char :=
  if c = '\n' then ['\\', 'n']
  else if c = '\t' then ['\\', 't']
  else if c = '\x00' then ['\\', '0']
  else if c = '"' ∨ c = '\\' then ['\\', c]
  else [c]

/-- A text between quotes. -/
def quoted (text : List Char) : List Char := '"' :: text.flatMap escaped ++ ['"']

/-- Blanks and complete comments. A line comment ends with its line. -/
inductive Spacing (lineComments : Bool) : List Char → Prop
  | nil : Spacing lineComments []
  | blank {c : Char} {cs : List Char} (layout : isLayout c = true)
      (more : Spacing lineComments cs) : Spacing lineComments (c :: cs)
  | block {body cs : List Char} (inner : ¬ ['*', '/'] <:+: body) (more : Spacing lineComments cs) :
      Spacing lineComments ('/' :: '*' :: (body ++ '*' :: '/' :: cs))
  | line {body cs : List Char} (allowed : lineComments = true) (inner : '\n' ∉ body)
      (more : Spacing lineComments cs) : Spacing lineComments ('/' :: '/' :: (body ++ '\n' :: cs))

/-- Texts between quotes; in front of each but the first stands what separates it from the text
before it. -/
def pieces (first : List Char) : List (List Char × List Char) → List Char
  | [] => quoted first
  | (between, next) :: more => quoted first ++ between ++ pieces next more

/-! ## Texts -/

/-- A character is escaped by one that stands for it, or it is nothing special between quotes. -/
theorem escaped_cases (c : Char) : (∃ e, escaped c = ['\\', e] ∧ escape? e = some c) ∨
    (escaped c = [c] ∧ c ≠ '\n' ∧ c ≠ '"' ∧ c ≠ '\\') := by
  by_cases newLine : c = '\n'
  · exact .inl ⟨'n', by simp [escaped, newLine], newLine ▸ rfl⟩
  by_cases tab : c = '\t'
  · exact .inl ⟨'t', by simp [escaped, tab], tab ▸ rfl⟩
  by_cases zero : c = '\x00'
  · exact .inl ⟨'0', by simp [escaped, zero], zero ▸ rfl⟩
  by_cases mark : c = '"' ∨ c = '\\'
  · refine .inl ⟨c, by simp [escaped, newLine, tab, zero, mark], ?_⟩
    rcases mark with rfl | rfl <;> rfl
  · exact .inr ⟨by simp [escaped, newLine, tab, zero, mark], newLine, not_or.mp mark⟩

theorem scanPiece_plain (newLine : c ≠ '\n') (quote : c ≠ '"') (mark : c ≠ '\\') :
    scanPiece start pos (c :: cs) = (scanPiece start (pos + 1) cs).cons c [] := by
  rw [scanPiece]
  · exact newLine
  · exact quote
  · exact fun same _ => mark same
  · exact fun e more same _ => mark same

/-- A written text is read back. -/
theorem scanPiece_quoted (start pos : Nat) (text rest : List Char) :
    scanPiece start pos (text.flatMap escaped ++ '"' :: rest) =
    ⟨text, [], ⟨pos + (text.flatMap escaped).length + 1, rest⟩⟩ := by
  induction text generalizing pos with
  | nil => rw [List.flatMap_nil, List.nil_append, scanPiece, List.length_nil, Nat.add_zero]
  | cons c text ih =>
    rcases escaped_cases c with ⟨e, written, stands⟩ | ⟨written, newLine, quote, mark⟩
    · rw [List.flatMap_cons, written, List.append_assoc, List.cons_append, List.cons_append,
        List.nil_append, scanPiece, ih]
      simp only [Piece.cons, stands, Option.getD_some,
        escapeNotes, Option.isSome_some, if_true, List.nil_append,
        List.cons_append, List.length_cons, Piece.mk.injEq, Cursor.mk.injEq, true_and, and_true]
      omega
    · rw [List.flatMap_cons, written, List.append_assoc, List.cons_append, List.nil_append,
        scanPiece_plain newLine quote mark, ih]
      simp only [Piece.cons, List.nil_append, List.cons_append, List.length_cons, Piece.mk.injEq,
        Cursor.mk.injEq, true_and, and_true]
      omega

/-! ## Between texts -/

theorem closeComment_block {body : List Char}
    (inner : ¬ ['*', '/'] <:+: body) (pos : Nat) (rest : List Char) :
    closeComment pos (body ++ '*' :: '/' :: rest) = some ⟨pos + body.length + 2, rest⟩ := by
  induction body generalizing pos with
  | nil => rfl
  | cons c body ih =>
    rw [List.cons_append, closeComment, ih fun inside =>
      inner (inside.trans (List.suffix_cons c body).isInfix), List.length_cons]
    · congr 2
      omega
    · rintro more rfl same
      cases body with
      | nil => cases same
      | cons d body =>
        obtain ⟨rfl, -⟩ := List.cons.inj same
        exact inner ⟨[], body, rfl⟩

theorem skipLine_line {body : List Char} (inner : '\n' ∉ body) (pos : Nat) (rest : List Char) :
    skipLine pos (body ++ '\n' :: rest) = ⟨pos + body.length, '\n' :: rest⟩ := by
  induction body generalizing pos with
  | nil => rfl
  | cons c body ih =>
    rw [List.mem_cons, not_or] at inner
    obtain ⟨other, inner⟩ := inner
    rw [List.cons_append, skipLine, if_neg (by simpa using Ne.symm other), ih inner,
      List.length_cons]
    congr 1
    omega

theorem skipBlanks_blank (layout : isLayout c = true) :
    skipBlanks lineComments ⟨pos, c :: cs⟩ = skipBlanks lineComments ⟨pos + 1, cs⟩ := by
  have solid : c ≠ '/' := by
    rintro rfl
    exact absurd layout (by decide)
  rw [skipBlanks, if_pos layout]
  · exact fun more same _ => solid same
  · exact fun more same _ => solid same

/-- Blanks and comments are passed over. -/
theorem Spacing.skips {between : List Char} (blanks : Spacing lineComments between)
    (pos : Nat) (rest : List Char) : skipBlanks lineComments ⟨pos, between ++ rest⟩ =
    skipBlanks lineComments ⟨pos + between.length, rest⟩ := by
  induction blanks generalizing pos with
  | nil => rfl
  | @blank c cs layout more ih =>
    rw [List.cons_append, skipBlanks_blank layout, ih, List.length_cons, Nat.add_right_comm,
      Nat.add_assoc]
  | @block body cs inner more ih =>
    have closed := closeComment_block inner (pos + 2) (cs ++ rest)
    have whole : '/' :: '*' :: (body ++ '*' :: '/' :: cs) ++ rest =
        '/' :: '*' :: (body ++ '*' :: '/' :: (cs ++ rest)) := by
      simp
    have length : pos + 2 + body.length + 2 + cs.length = pos +
      ('/' :: '*' :: (body ++ '*' :: '/' :: cs)).length := by
      simp only [List.length_cons, List.length_append]
      omega
    rw [whole, skipBlanks]
    split
    next next found =>
      rw [closed] at found
      obtain rfl := Option.some.inj found
      rw [ih, length]
    next missing => rw [closed] at missing; cases missing
  | @line body cs allowed inner more ih =>
    have whole : '/' :: '/' :: (body ++ '\n' :: cs) ++ rest =
        '/' :: '/' :: (body ++ '\n' :: (cs ++ rest)) := by
      simp
    have length : pos + 2 + body.length + 1 + cs.length = pos +
      ('/' :: '/' :: (body ++ '\n' :: cs)).length := by
      simp only [List.length_cons, List.length_append]
      omega
    rw [whole, skipBlanks, if_pos allowed, skipLine_line inner,
      skipBlanks_blank (by decide), ih, length]

/-- The quote in front of a text is where blanks and comments end. -/
theorem skipBlanks_quote (lineComments : Bool) (pos : Nat) (cs : List Char) :
    skipBlanks lineComments ⟨pos, '"' :: cs⟩ = (⟨pos, '"' :: cs⟩, []) :=
  skipBlanks_still (by decide) (not_commented (by decide)) lineComments

/-! ## String literals -/

theorem scanPieces_last {place : Cursor} {piece : Piece}
    (scanned : scanPiece start place.pos place.rest = piece)
    (last : skipBlanks lineComments piece.next = (⟨pos, []⟩, [])) :
    scanPieces lineComments start place = (piece.chars, piece.next.pos, piece.notes, ⟨pos, []⟩) :=
    by
  have opened := scanPieces.eq_def lineComments start place
  dsimp only at opened
  rw [scanned, last, List.append_nil] at opened
  exact opened

theorem scanPieces_more {place : Cursor} {piece : Piece}
    (scanned : scanPiece start place.pos place.rest = piece)
    (quote : skipBlanks lineComments piece.next = (⟨pos, '"' :: cs⟩, [])) :
    scanPieces lineComments start place =
      let (chars, stop, notes, next) := scanPieces lineComments start ⟨pos + 1, cs⟩
      (piece.chars ++ chars, stop, piece.notes ++ notes, next) := by
  have opened := scanPieces.eq_def lineComments start place
  dsimp only at opened
  rw [scanned, quote, List.append_nil] at opened
  exact opened

/-- Texts with blanks and comments between them are scanned together. -/
theorem scanPieces_pieces (start pos : Nat) (first : List Char)
    (more : List (List Char × List Char)) (between : ∀ item ∈ more, Spacing lineComments item.1)
    (whole : pieces first more = '"' :: cs) : scanPieces lineComments start ⟨pos, cs⟩ =
    (first ++ more.flatMap (·.2), pos + cs.length, [], ⟨pos + cs.length, []⟩) := by
  induction more generalizing first pos cs with
  | nil =>
    obtain rfl : first.flatMap escaped ++ ['"'] = cs := (List.cons.inj whole).2
    have length :
      pos + (first.flatMap escaped ++ ['"']).length = pos + (first.flatMap escaped).length + 1 := by
      rw [List.length_append]
      rfl
    rw [length, scanPieces_last (scanPiece_quoted start pos first []) (by rw [skipBlanks]),
      List.flatMap_nil, List.append_nil]
  | cons item more ih =>
    obtain ⟨blanks, next⟩ := item
    obtain ⟨here, others⟩ := List.forall_mem_cons.mp between
    obtain ⟨rest, later⟩ : ∃ rest, pieces next more = '"' :: rest := by
      cases more <;> exact ⟨_, rfl⟩
    obtain rfl : first.flatMap escaped ++ '"' :: (blanks ++ '"' :: rest) = cs := by
      have same := (List.cons.inj whole).2
      rw [later] at same
      simpa using same
    set stop := pos + (first.flatMap escaped).length + 1 with ends
    have skipped : skipBlanks lineComments ⟨stop, blanks ++ '"' :: rest⟩ =
      (⟨stop + blanks.length, '"' :: rest⟩, []) := by
      rw [here.skips, skipBlanks_quote]
    have length : stop + blanks.length + 1 + rest.length = pos +
      (first.flatMap escaped ++ '"' :: (blanks ++ '"' :: rest)).length := by
      simp only [ends, List.length_append, List.length_cons]
      omega
    rw [scanPieces_more (scanPiece_quoted start pos first _) skipped,
      ih (stop + blanks.length + 1) next others later, length]
    rfl

theorem next_pieces (features : Features) (pos : Nat)
    (first : List Char) (more : List (List Char × List Char))
    (between : ∀ item ∈ more, Spacing features.lineComments item.1) :
    next features ⟨pos, pieces first more⟩ = ⟨.text (String.ofList (first ++ more.flatMap (·.2))),
      pos, pos + (pieces first more).length, [], ⟨pos + (pieces first more).length, []⟩⟩ := by
  obtain ⟨cs, whole⟩ : ∃ cs, pieces first more = '"' :: cs := by
    cases more <;> exact ⟨_, rfl⟩
  have length : pos + 1 + cs.length = pos + ('"' :: cs).length := by
    rw [List.length_cons]
    omega
  have scanned := scanPieces_pieces pos (pos + 1) first more between whole
  rw [length] at scanned
  rw [whole]
  refine next_of_scanAt (skipBlanks_quote _ _ _) ?_
  rw [scanAt, if_neg (by decide), if_neg (by simp [startsNumber, isDigit]), if_pos (by decide),
    scanText, scanned]

end Lexeme

namespace Session

open Lexeme

/-- **String literals round-trip.** Texts that are written between quotes, with blanks and complete
comments between them, are read without a report as one string literal. It stores the texts
together, and goes from the first quote to the last one. -/
theorem tokenize_quoted (s : Session) (features : Features) (name : String) (first : List Char)
    (more : List (List Char × List Char))
    (between : ∀ item ∈ more, Spacing features.lineComments item.1) :
    let content := pieces first more
    let text := String.ofList (first ++ more.flatMap (·.2))
    let base := s.journal.nextBase
    let stop := base + content.length
    ∃ t, s.tokenize features name content = .ok (t, [{ Token.bare .stringLiteral ⟨base, stop⟩
      with text, stringIndex := s.strings.size }, .bare .endOfInput ⟨stop, stop⟩]) ∧
      t.stringAt s.strings.size = text ∧ t.journal = s.journal.addFile name content.toArray := by
  intro content text base stop
  have read := next_pieces features base first more between
  have all : scanAll features ⟨base, content⟩ =
      [⟨.text text, base, stop, [], ⟨stop, []⟩⟩, ⟨.endOfInput, stop, stop, [], ⟨stop, []⟩⟩] := by
    rw [scanAll_cons read rfl, scanAll, next_nil]
    rfl
  have stored : inTable (s.strings.size + 1) s.strings.size = true := by simp [inTable]
  rw [tokenize, all]
  exact ⟨_, rfl, by simp [stringAt, stored], rfl⟩

/-- A text with a quote and one with a new line, and between them two comments with quotes in
them. -/
theorem tokenize_quoted_commented :
    let s := Session.new 0 (.new none false)
    let between := "/* \" */ // \"\n".toList
    let content := "\"a\\\"\"/* \" */ // \"\n\"\\nb\"".toList
    Spacing Features.initial.lineComments between ∧ ∃ t, s.tokenize .initial "a" content = .ok (t,
      [{ Token.bare .stringLiteral ⟨0, 23⟩ with text := "a\"\nb", stringIndex := 0 },
      .bare .endOfInput ⟨23, 23⟩]) ∧
      t.stringAt 0 = "a\"\nb" ∧ t.journal = s.journal.addFile "a" content.toArray := by
  intro s between content
  have blanks : Spacing Features.initial.lineComments between :=
    @Spacing.block _ [' ', '"', ' '] _ (by decide)
      (.blank rfl (@Spacing.line _ [' ', '"'] _ rfl (by decide) .nil))
  exact ⟨blanks, tokenize_quoted s .initial "a" ['a', '"'] [(between, ['\n', 'b'])]
    (List.forall_mem_singleton.mpr blanks)⟩

end Session

end BilingualC
