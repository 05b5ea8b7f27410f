import Mathlib
import BilingualC.Proofs.Lexeme.Numeral
import BilingualC.Proofs.Spelling

/-!
# Spelled tokens

`Lexeme.Spelled` says how tokens are written: keywords in one of the admitted languages and in small
or capital letters, identifiers, decimal numerals and punctuators. Written one after the other with
single blanks between them they are read back, each as the token that it spells. A text of
punctuators alone needs no blanks: it is cut into the longest ones from left to right
(`Lexeme.Cut`).

Main result: `Session.tokenize_spelled`.
-/

namespace BilingualC

namespace Lexeme

/-! ## How tokens are written -/

/-- Says that characters are an admitted spelling of a keyword. -/
def SpellsKeyword (features : Features) (text : String) (k : Keyword) : Prop :=
  (features.englishKeywords = true ∧ (text = k.english ∨ text = Text.upper k.english)) ∨
    (features.russianKeywords = true ∧ (text = k.russian ∨ text = Text.upper k.russian))

/-- How a token is written; its place and the number of its spelling are left open. -/
inductive Spelled (features : Features) : List Char → Token → Prop
  | keyword {k : Keyword} {text : String} (mem : k ∈ Keyword.all)
      (spells : SpellsKeyword features text k) : Spelled features text.toList (.bare k.kind .none)
  | identifier {a : Char} {cs : List Char} (letter : isLetter a = true)
      (more : ∀ c ∈ cs, isWordChar c = true)
      (other : ∀ k ∈ Keyword.all, ¬ SpellsKeyword features (String.ofList (a :: cs)) k) : Spelled
      features (a :: cs) { Token.bare .identifier .none with text := String.ofList (a :: cs) }
  | numeral {digits : List Char} (some : digits ≠ []) (all : ∀ d ∈ digits, isDigit d = true)
      (small : exactValue digits ≤ largestInt) :
      Spelled features digits { Token.bare .intLiteral .none with
        text := String.ofList digits
        intValue := exactValue digits }
  | punctuator {chars : List Char} {kind : TokenKind} (mem : (chars, kind) ∈ punctuators) :
      Spelled features chars (.bare kind .none)

/-- The token of a lexeme that stores no string, but for the number of its spelling. -/
def plainToken (features : Features) (loc : Location) : Lexeme → Token
  | .word spelling =>
    match Keyword.find? features.englishKeywords features.russianKeywords spelling with
    | some kind => .bare kind loc
    | none => { Token.bare .identifier loc with text := spelling }
  | .punctuator kind => .bare kind loc
  | .integer spelling value =>
    { Token.bare .intLiteral loc with text := spelling, intValue := value }
  | _ => .bare .endOfInput loc

/-- A source ends or goes on with a blank. -/
def Parted (rest : List Char) : Prop := rest = [] ∨ ∃ more, rest = ' ' :: more

theorem Parted.stops {p : Char → Bool} {rest : List Char} (parted : Parted rest)
    (blank : p ' ' = false) : Stops p rest := by
  rcases parted with rfl | ⟨more, rfl⟩
  · exact nofun
  · rintro c ⟨⟩
    exact blank

/-- Characters are read as a lexeme wherever they stand, if a blank or the end follows. -/
def Reads (features : Features) (chars : List Char) (lexeme : Lexeme) : Prop :=
  ∀ (pos : Nat) (rest : List Char), Parted rest → next features ⟨pos, chars ++ rest⟩ =
    ⟨lexeme, pos, pos + chars.length, [], ⟨pos + chars.length, rest⟩⟩

variable {features : Features} {chars rest : List Char} {pos : Nat} {a : Char} {cs : List Char}
    {scan : Scan}

/-! ## Words -/

theorem reads_word (features : Features) (letter : isLetter a = true)
    (all : ∀ c ∈ cs, isWordChar c = true) :
    Reads features (a :: cs) (.word (String.ofList (a :: cs))) := by
  intro pos rest parted
  have word : isWordChar a = true := by simp [isWordChar, letter]
  obtain ⟨layout, solid⟩ := not_layout_of_word word
  refine next_of_scanAt (skipBlanks_still layout (not_commented solid) _) ?_
  have run := spanWhile_append pos (List.forall_mem_cons.mpr ⟨word, all⟩) (parted.stops (by decide))
  rw [scanAt, if_pos letter, scanWord]
  exact congrArg (fun r : List Char × Cursor =>
    some (Scan.mk (.word (String.ofList r.1)) pos r.2.pos [] r.2)) run

/-! ## Numerals -/

/-- Decimal digits of an integer of the language, in front of a blank. -/
theorem reads_numeral (some : chars ≠ []) (all : ∀ d ∈ chars, isDigit d = true)
    (small : exactValue chars ≤ largestInt) :
    Reads features chars (.integer (String.ofList chars) (exactValue chars)) := by
  intro pos rest parted
  have valid : ∀ d ∈ chars, digitValue d < 10 := fun d mem => value_of_isDigit (all d mem)
  have ends : ∀ c ∈ rest.head?, ¬ Continues features [] chars c := by
    rcases parted with rfl | ⟨more, rfl⟩
    · exact nofun
    · rintro c ⟨⟩
      simp [Continues, isDigit, isExponentMark, radixMarks]
  obtain ⟨float, read⟩ := next_numeral pos .plain some valid ends
  have counts := accumulate_counts (by decide) (by decide) valid
  rw [← exactValue_eq] at counts
  have inside : (accumulate 10 chars).overflow = false :=
    counts.overflow.trans (decide_eq_false (Nat.not_lt.mpr small))
  have value : (accumulate 10 chars).value.toNat = exactValue chars :=
    counts.value.trans (Nat.min_eq_left (Nat.le_succ_of_le small))
  rw [List.nil_append] at read
  rw [read, wholeNumber, inside, if_neg Bool.false_ne_true, value]

/-! ## Punctuators -/

theorem afterStart?_isSome {start text : List Char} : (Text.afterStart? start text).isSome = true ↔
    start <+: text := by
  rw [Option.isSome_iff_exists]
  exact exists_congr fun rest => Text.afterStart?_eq_some_iff.trans eq_comm

/-- What punctuators are made of. -/
theorem punctuators_listed : ∀ entry ∈ punctuators, punctuator? entry.1 = some entry ∧
    ' ' ∉ entry.1 ∧ (entry.1.head? = some '.' → entry.1 = ['.']) ∧
    (entry.1.head? = some '/' → entry.1 = ['/'] ∨ entry.1 = ['/', '=']) ∧
    entry.2 ≠ .identifier ∧ entry.2 ≠ .endOfInput := by
  decide

/-- The characters of punctuators start nothing else. -/
theorem not_mark {entry : List Char × TokenKind}
    (mem : entry ∈ punctuators) (inside : a ∈ entry.1) :
    isLayout a = false ∧ isLetter a = false ∧ isDigit a = false ∧ a ≠ '"' ∧ a ≠ '\'' := by
  have listed :
      (punctuators.all fun entry => entry.1.all fun c => !isLayout c && decide (c.toNat < 0x80) &&
      !(c.isAlpha || c == '_') && !isDigit c && c != '"' && c != '\'') = true := by
    decide
  have here := List.all_eq_true.mp (List.all_eq_true.mp listed entry mem) a inside
  simp only [Bool.and_eq_true, Bool.not_eq_true', decide_eq_true_eq, bne_iff_ne] at here
  obtain ⟨⟨⟨⟨⟨layout, small⟩, letter⟩, digit⟩, text⟩, character⟩ := here
  exact ⟨layout, (isLetter_ascii small).trans letter, digit, text, character⟩

/-- Punctuators are listed with longer ones first. -/
theorem punctuators_sorted : punctuators.Pairwise fun entry later =>
    later.1.length ≤ entry.1.length := by
  decide

/-- The first punctuator that is in front of a text is the longest one. -/
theorem punctuator?_longest {entry : List Char × TokenKind} (found : punctuator? cs = some entry) :
    ∀ other ∈ punctuators, other.1 <+: cs → other.1.length ≤ entry.1.length := by
  intro other mem front
  obtain ⟨-, before, behind, whole, none⟩ := List.find?_eq_some_iff_append.mp found
  have sorted := punctuators_sorted
  rw [whole] at mem sorted
  rcases List.mem_append.mp mem with early | late
  · exact absurd (afterStart?_isSome.2 front) (by simpa using none other early)
  · rcases List.mem_cons.mp late with rfl | late
    · exact le_refl _
    · exact (List.pairwise_cons.mp (List.pairwise_append.mp sorted).2.1).1 other late

/-- A punctuator that is found is in front of the text. -/
theorem punctuator?_front {entry : List Char × TokenKind} (found : punctuator? cs = some entry) :
    entry ∈ punctuators ∧ cs = entry.1 ++ cs.drop entry.1.length ∧ 0 < entry.1.length := by
  obtain ⟨spelling, kind⟩ := entry
  exact ⟨(punctuator?_some found).1, (punctuator?_some found).2, punctuator?_pos found⟩

/-- A punctuator is read where nothing longer starts. -/
theorem next_punctuator (features : Features) (pos : Nat)
    {entry : List Char × TokenKind} (found : punctuator? (a :: cs) = some entry)
    (open_ : ¬ Commented (a :: cs)) (pointless : a = '.' → ∀ b ∈ cs.head?, isDigit b = false) :
    next features ⟨pos, a :: cs⟩ = ⟨.punctuator entry.2, pos, pos + entry.1.length, [],
      ⟨pos + entry.1.length, (a :: cs).drop entry.1.length⟩⟩ := by
  obtain ⟨mem, whole, pos⟩ := punctuator?_front found
  have first : a ∈ entry.1 := by
    cases start : entry.1 with
    | nil => exact absurd pos (by simp [start])
    | cons b bs =>
      rw [start] at whole
      rw [(List.cons.inj whole).1]
      exact List.mem_cons_self
  obtain ⟨layout, letter, digit, text, character⟩ := not_mark mem first
  have number : startsNumber a cs = false := by
    unfold startsNumber
    rw [digit, Bool.false_or]
    by_cases point : a = '.'
    · cases cs with
      | nil => simp
      | cons b bs => simp [pointless point b rfl]
    · simp [point]
  refine next_of_scanAt (skipBlanks_still layout open_ _) ?_
  simp [scanAt, letter, number, text, character, found]

/-- A punctuator in front of a blank is found. -/
theorem punctuator?_parted (chars : List Char) (parted : Parted rest) :
    punctuator? (chars ++ rest) = punctuator? chars := by
  refine List.find?_congr fun entry mem => ?_
  rw [Bool.eq_iff_iff, afterStart?_isSome, afterStart?_isSome]
  refine ⟨fun front => ?_, fun front => front.trans (List.prefix_append _ _)⟩
  rcases Nat.le_total entry.1.length chars.length with short | long
  · exact List.prefix_of_prefix_length_le front (List.prefix_append _ _) short
  · obtain ⟨behind, whole⟩ :=
      List.prefix_of_prefix_length_le (List.prefix_append chars rest) front long
    rw [← whole, List.prefix_append_right_inj] at front
    rcases parted with rfl | ⟨more, rfl⟩
    · rw [List.prefix_nil.mp front, List.append_nil] at whole
      exact whole ▸ List.prefix_rfl
    · cases behind with
      | nil => exact ⟨[], by simpa using whole.symm⟩
      | cons b bs =>
        obtain rfl : b = ' ' := (List.cons_prefix_cons.mp front).1
        exact absurd (whole ▸ by simp) (punctuators_listed entry mem).2.1

theorem reads_punctuator {kind : TokenKind} (mem : (chars, kind) ∈ punctuators) :
    Reads features chars (.punctuator kind) := by
  intro pos rest parted
  obtain ⟨found, blank, point, slash, -⟩ := punctuators_listed _ mem
  have here := punctuator?_parted chars parted
  rw [found] at here
  cases chars with
  | nil => exact absurd (punctuator?_pos found) (by simp)
  | cons a cs =>
    have open_ : ¬ Commented (a :: (cs ++ rest)) := by
      by_cases slashed : a = '/'
      · subst slashed
        rcases slash rfl with only | only <;> cases only <;>
          rcases parted with rfl | ⟨more, rfl⟩ <;> simp [Commented]
      · exact not_commented slashed
    have pointless : a = '.' → ∀ b ∈ (cs ++ rest).head?, isDigit b = false := by
      rintro rfl b mem
      cases point rfl
      rcases parted with rfl | ⟨more, rfl⟩
      · cases mem
      · cases mem
        decide
    have read := next_punctuator features pos here open_ pointless
    simpa using read

/-! ## Keywords -/

/-- The admitted spellings of a keyword, and no others, stand for it. -/
theorem find?_of_spells {k : Keyword} {word : String}
    (mem : k ∈ Keyword.all) (spells : SpellsKeyword features word k) :
    Keyword.find? features.englishKeywords features.russianKeywords word = some k.kind := by
  have listed : ∀ k ∈ Keyword.all, ∀ other : Bool, (Keyword.find? true other k.english =
      some k.kind ∧ Keyword.find? true other (Text.upper k.english) = some k.kind) ∧
      Keyword.find? other true k.russian = some k.kind ∧
      Keyword.find? other true (Text.upper k.russian) = some k.kind := by
    decide +kernel
  rcases spells with ⟨english, rfl | rfl⟩ | ⟨russian, rfl | rfl⟩
  · exact english ▸ (listed k mem features.russianKeywords).1.1
  · exact english ▸ (listed k mem features.russianKeywords).1.2
  · exact russian ▸ (listed k mem features.englishKeywords).2.1
  · exact russian ▸ (listed k mem features.englishKeywords).2.2

theorem find?_of_other {word : String}
    (other : ∀ k ∈ Keyword.all, ¬ SpellsKeyword features word k) :
    Keyword.find? features.englishKeywords features.russianKeywords word = none := by
  have english : (if features.englishKeywords then Keyword.all.find? fun k =>
    Keyword.spells k.english word else none) = none := by
    split
    next on =>
      refine List.find?_eq_none.mpr fun k mem spells => other k mem (.inl ⟨on, ?_⟩)
      simpa [Keyword.spells] using spells
    next => rfl
  have russian : (if features.russianKeywords then Keyword.all.find? fun k =>
    Keyword.spells k.russian word else none) = none := by
    split
    next on =>
      refine List.find?_eq_none.mpr fun k mem spells => other k mem (.inr ⟨on, ?_⟩)
      simpa [Keyword.spells] using spells
    next => rfl
  unfold Keyword.find?
  rw [english, russian]
  rfl

/-- Keywords are words. -/
theorem keyword_chars {k : Keyword} {word : String}
    (mem : k ∈ Keyword.all) (spells : SpellsKeyword features word k) :
    ∃ a cs, word.toList = a :: cs ∧ isLetter a = true ∧ ∀ c ∈ cs, isWordChar c = true := by
  have listed : (Keyword.all.all fun k =>
    [k.english, Text.upper k.english, k.russian, Text.upper k.russian].all fun word =>
      !word.toList.isEmpty && word.toList.all isLetter) = true := by
    decide +kernel
  have written : word ∈ [k.english, Text.upper k.english, k.russian, Text.upper k.russian] := by
    rcases spells with ⟨-, rfl | rfl⟩ | ⟨-, rfl | rfl⟩ <;> simp
  have here := List.all_eq_true.mp (List.all_eq_true.mp listed k mem) word written
  cases chars : word.toList with
  | nil => simp [chars] at here
  | cons a cs =>
    simp only [chars, List.isEmpty_cons, Bool.not_false, Bool.true_and, List.all_cons,
      Bool.and_eq_true, List.all_eq_true] at here
    exact ⟨a, cs, rfl, here.1, fun c mem => by simp [isWordChar, here.2 c mem]⟩

/-- A lexeme whose token stores no string; no punctuator is an identifier. -/
def Plain : Lexeme → Prop
  | .word _ | .integer _ _ | .endOfInput => True
  | .punctuator kind => kind ≠ .identifier
  | _ => False

/-- A spelled token is read as a lexeme that makes it. -/
theorem Spelled.reads {token : Token} (spelled : Spelled features chars token) :
    ∃ lexeme, Reads features chars lexeme ∧ lexeme.isEnd = false ∧ lexeme.Plain ∧
      ∀ loc, plainToken features loc lexeme = { token with loc } := by
  cases spelled with
  | @keyword k word mem spells =>
    obtain ⟨a, cs, written, letter, more⟩ := keyword_chars mem spells
    have read := reads_word features letter more
    rw [← written, String.ofList_toList] at read
    refine ⟨_, read, rfl, trivial, fun loc => ?_⟩
    rw [plainToken, find?_of_spells mem spells]
    rfl
  | @identifier a cs letter more other =>
    refine ⟨_, reads_word features letter more, rfl, trivial, fun loc => ?_⟩
    rw [plainToken, find?_of_other other]
    rfl
  | numeral some all small => exact ⟨_, reads_numeral some all small, rfl, trivial, fun _ => rfl⟩
  | punctuator mem =>
    exact ⟨_, reads_punctuator mem, rfl, (punctuators_listed _ mem).2.2.2.2.1, fun _ => rfl⟩

/-! ## Rows of tokens -/

/-- Lexemes in a row, with a number of characters between them and nothing noted. -/
def placed (gap : Nat) : Nat → List (List Char × Lexeme) → List (Lexeme × Location × List Note)
  | _, [] => []
  | pos, (chars, lexeme) :: more =>
    (lexeme, ⟨pos, (pos + chars.length : Nat)⟩, []) :: placed gap (pos + chars.length + gap) more

/-- Words with single blanks between them. -/
def spaced : List (List Char) → List Char
  | [] => []
  | [chars] => chars
  | chars :: more => chars ++ ' ' :: spaced more

theorem next_blank (features : Features) (pos : Nat) (cs : List Char) :
    next features ⟨pos, ' ' :: cs⟩ = next features ⟨pos + 1, cs⟩ := by
  have skip : skipBlanks features.lineComments ⟨pos, ' ' :: cs⟩ =
    skipBlanks features.lineComments ⟨pos + 1, cs⟩ := by
    rw [skipBlanks]
    · rfl
    · rintro _ ⟨⟩
    · rintro _ ⟨⟩
  obtain ⟨⟨place, more⟩, notes, behind⟩ :
    ∃ place notes, skipBlanks features.lineComments ⟨pos + 1, cs⟩ = (place, notes) :=
    ⟨_, _, rfl⟩
  cases more with
  | nil => rw [next_end behind, next_end (skip.trans behind)]
  | cons a more => rw [next_behind behind, next_behind (skip.trans behind)]

theorem scanAll_blank (features : Features) (pos : Nat) (cs : List Char) :
    scanAll features ⟨pos, ' ' :: cs⟩ = scanAll features ⟨pos + 1, cs⟩ := by
  rw [scanAll, next_blank, scanAll.eq_def features ⟨pos + 1, cs⟩]

/-- Words with blanks between them are read one by one. -/
theorem scanAll_spaced (words : List (List Char × Lexeme))
    (reads : ∀ word ∈ words, Reads features word.1 word.2 ∧ word.2.isEnd = false) (pos : Nat) :
    (scanAll features ⟨pos, spaced (words.map (·.1))⟩).map row =
      placed 1 pos words ++ [ending (pos + (spaced (words.map (·.1))).length)] := by
  induction words generalizing pos with
  | nil => exact scanAll_nil features pos
  | cons word more ih =>
    obtain ⟨⟨read, goes⟩, others⟩ := List.forall_mem_cons.mp reads
    obtain ⟨chars, lexeme⟩ := word
    cases more with
    | nil =>
      have first := read pos [] (.inl rfl)
      rw [List.append_nil] at first
      change (scanAll features ⟨pos, chars⟩).map row = _
      rw [scanAll_cons first goes, List.map_cons, scanAll_nil]
      rfl
    | cons second more =>
      have first := read pos (' ' :: spaced ((second :: more).map (·.1))) (.inr ⟨_, rfl⟩)
      change (scanAll features ⟨pos, chars ++ ' ' :: spaced ((second :: more).map (·.1))⟩).map row =
        _
      rw [scanAll_cons first goes, List.map_cons, scanAll_blank, ih others]
      simp only [placed, List.map_cons, List.cons_append, spaced, List.length_append,
        List.length_cons]
      refine congrArg₂ List.cons rfl ?_
      refine congrArg₂ List.cons rfl (congrArg (_ ++ [ending ·]) ?_)
      omega

/-! ## Punctuators without blanks -/

/-- A text is cut into punctuators, each the longest one in front of the rest. -/
inductive Cut : List Char → List (List Char × TokenKind) → Prop
  | nil : Cut [] []
  | cons {entry : List Char × TokenKind} {rest : List Char} {more : List (List Char × TokenKind)}
      (mem : entry ∈ punctuators) (longest : ∀ other ∈ punctuators, other.1 <+: entry.1 ++ rest →
        other.1.length ≤ entry.1.length)
      (later : Cut rest more) : Cut (entry.1 ++ rest) (entry :: more)

theorem Cut.mem {text : List Char} {entries : List (List Char × TokenKind)}
    (cut : Cut text entries) : ∀ entry ∈ entries, entry ∈ punctuators := by
  induction cut with
  | nil => exact fun _ mem => (List.not_mem_nil mem).elim
  | cons mem _ _ ih => exact List.forall_mem_cons.mpr ⟨mem, ih⟩

/-- Characters of punctuators only. -/
def Marks (cs : List Char) : Prop := ∀ c ∈ cs, (punctuator? [c]).isSome = true

theorem digit_of_mark (mark : (punctuator? [a]).isSome = true) : isDigit a = false := by
  obtain ⟨⟨spelling, kind⟩, found⟩ := Option.isSome_iff_exists.mp mark
  obtain ⟨mem, whole⟩ := punctuator?_some found
  have pos := punctuator?_pos found
  cases spelling with
  | nil => exact absurd pos (by simp)
  | cons b bs =>
    obtain rfl : a = b := (List.cons.inj whole).1
    exact (not_mark mem List.mem_cons_self).2.2.1

/-- The longest punctuator in front of a text is the one that is found. -/
theorem punctuator?_of_longest {entry : List Char × TokenKind} (mem : entry ∈ punctuators)
    (longest : ∀ other ∈ punctuators, other.1 <+: entry.1 ++ rest → other.1.length ≤ entry.1.length)
    : punctuator? (entry.1 ++ rest) = some entry := by
  have front : entry.1 <+: entry.1 ++ rest := List.prefix_append _ _
  cases found : punctuator? (entry.1 ++ rest) with
  | none => exact absurd rfl (punctuator?_none.mp found entry mem rest)
  | some other =>
    obtain ⟨inside, whole, -⟩ := punctuator?_front found
    have start : other.1 <+: entry.1 ++ rest := ⟨_, whole.symm⟩
    have same : other.1 = entry.1 :=
      (List.prefix_of_prefix_length_le start front (longest other inside start)).eq_of_length
        (Nat.le_antisymm (longest other inside start) (punctuator?_longest found entry mem front))
    have one := (punctuators_listed other inside).1
    rw [same, (punctuators_listed entry mem).1] at one
    exact one.symm

theorem exists_cut {text : List Char} (marks : Marks text) : ∃ entries, Cut text entries := by
  induction size : text.length using Nat.strong_induction_on generalizing text with
  | _ n ih =>
    cases text with
    | nil => exact ⟨[], .nil⟩
    | cons a cs =>
      obtain ⟨single, alone⟩ := Option.isSome_iff_exists.mp (marks a List.mem_cons_self)
      obtain ⟨inside, whole, -⟩ := punctuator?_front alone
      cases found : punctuator? (a :: cs) with
      | none =>
        refine absurd ?_ (punctuator?_none.mp found single inside ([a].drop single.1.length ++ cs))
        rw [← List.append_assoc, ← whole]
        rfl
      | some entry =>
        obtain ⟨mem, split, pos⟩ := punctuator?_front found
        obtain ⟨more, later⟩ := ih ((a :: cs).drop entry.1.length).length
          (by simp only [List.length_drop, ← size, List.length_cons]; omega)
          (fun c mem => marks c (List.mem_of_mem_drop mem)) rfl
        refine ⟨entry :: more, ?_⟩
        rw [split]
        exact .cons mem (fun other inside front =>
          punctuator?_longest found other inside (split ▸ front)) later

/-- A text of punctuators without comments is read as it is cut. -/
theorem scanAll_cut {text : List Char} {entries : List (List Char × TokenKind)}
    (cut : Cut text entries) (marks : Marks text)
    (noLine : ¬ ['/', '/'] <:+: text) (noBlock : ¬ ['/', '*'] <:+: text) (pos : Nat) :
    (scanAll features ⟨pos, text⟩).map row = placed 0 pos (entries.map fun entry =>
      (entry.1, .punctuator entry.2)) ++ [ending (pos + text.length)] := by
  induction cut generalizing pos with
  | nil => exact scanAll_nil features pos
  | @cons entry rest more mem longest later ih =>
    have found := punctuator?_of_longest mem longest
    have behind : rest <:+ entry.1 ++ rest := List.suffix_append _ _
    have others := ih (fun c mem => marks c (List.mem_append_right _ mem))
      (fun inside => noLine (inside.trans behind.isInfix))
      (fun inside => noBlock (inside.trans behind.isInfix)) (pos + entry.1.length)
    have open_ : ¬ Commented (entry.1 ++ rest) := fun start =>
      start.elim (fun front => noLine front.isInfix) fun front => noBlock front.isInfix
    obtain ⟨a, cs, shape⟩ : ∃ a cs, entry.1 ++ rest = a :: cs := by
      refine List.exists_cons_of_ne_nil fun empty => ?_
      have pos := (punctuator?_front found).2.2
      rw [(List.append_eq_nil_iff.mp empty).1] at pos
      exact absurd pos (by simp)
    have drop : (a :: cs).drop entry.1.length = rest := by rw [← shape, List.drop_left]
    rw [shape] at found open_ marks ⊢
    have first := next_punctuator features pos found open_ fun _ b mem =>
      digit_of_mark (marks b (List.mem_cons_of_mem _ (List.mem_of_mem_head? mem)))
    rw [drop] at first
    rw [scanAll_cons first rfl, List.map_cons, others, ← shape, List.length_append]
    simp only [placed, List.map_cons, List.cons_append, Nat.add_zero, Nat.add_assoc]
    rfl

/-! ## Tokens in a row -/

/-- Tokens in a row, with a number of characters between them. -/
def inRow (gap : Nat) : Nat → List (List Char × Token) → List Token
  | _, [] => []
  | pos, (chars, token) :: more =>
    { token with loc := ⟨pos, (pos + chars.length : Nat)⟩ } :: inRow gap
    (pos + chars.length + gap) more

/-- Spelled tokens are read as lexemes that make them. -/
theorem exists_words {items : List (List Char × Token)}
    (spelled : ∀ item ∈ items, Spelled features item.1 item.2) :
    ∃ words : List (List Char × Lexeme), words.map (·.1) = items.map (·.1) ∧
    (∀ word ∈ words, Reads features word.1 word.2 ∧ word.2.isEnd = false) ∧
    (∀ word ∈ words, word.2.Plain) ∧ ∀ gap pos,
    (placed gap pos words).map (fun r => plainToken features r.2.1 r.1) = inRow gap pos items := by
  induction items with
  | nil => exact ⟨[], rfl, by simp, by simp, fun _ _ => rfl⟩
  | cons item more ih =>
    obtain ⟨here, others⟩ := List.forall_mem_cons.mp spelled
    obtain ⟨words, chars, reads, plain, tokens⟩ := ih others
    obtain ⟨lexeme, read, goes, isPlain, token⟩ := here.reads
    refine ⟨(item.1, lexeme) :: words, by rw [List.map_cons, List.map_cons, chars],
      List.forall_mem_cons.mpr ⟨⟨read, goes⟩, reads⟩,
      List.forall_mem_cons.mpr ⟨isPlain, plain⟩, fun gap pos => ?_⟩
    rw [placed, List.map_cons, tokens, token]
    rfl

/-- Punctuators in a row make their tokens in a row. -/
theorem map_placed_punctuators (features : Features)
    (gap pos : Nat) (entries : List (List Char × TokenKind)) :
    ((placed gap pos (entries.map fun entry => (entry.1, .punctuator entry.2))).map fun r =>
      plainToken features r.2.1 r.1) =
    inRow gap pos (entries.map fun entry => (entry.1, .bare entry.2 .none)) := by
  induction entries generalizing pos with
  | nil => rfl
  | cons entry more ih =>
    rw [List.map_cons, placed, List.map_cons, ih]
    rfl

theorem placed_plain {words : List (List Char × Lexeme)} (plain : ∀ word ∈ words, word.2.Plain)
    (gap pos : Nat) : ∀ r ∈ placed gap pos words, r.1.Plain ∧ r.2.2 = [] := by
  induction words generalizing pos with
  | nil => exact fun _ mem => (List.not_mem_nil mem).elim
  | cons word more ih =>
    obtain ⟨here, others⟩ := List.forall_mem_cons.mp plain
    exact List.forall_mem_cons.mpr ⟨⟨here, rfl⟩, ih others _⟩

end Lexeme

/-! ## Tokens of a session -/

namespace Session

open Lexeme

/-- A token without the number of its spelling. -/
def unnumbered (token : Token) : Token := { token with spelling := 0 }

/-- A number names a stored spelling. -/
def Numbers (p : Spellings) (id : Int) (spelling : String) : Prop :=
  ∃ (i : Nat) (e : Spelling), 0 < i ∧ id = i ∧ p.entries[i]? = some e ∧ e.text = spelling

/-- The spellings of a session go on. -/
structure Stores (s t : Session) : Prop where
  stored : t.spellings.Stored Checksum.ofText
  kept : ∀ i < s.spellings.entries.size, t.spellings.entries[i]? = s.spellings.entries[i]?
  more : s.spellings.entries.size ≤ t.spellings.entries.size
  journal : t.journal = s.journal

variable {s t u : Session}

theorem Stores.refl (stored : s.spellings.Stored Checksum.ofText) : s.Stores s :=
  ⟨stored, fun _ _ => rfl, le_refl _, rfl⟩

theorem Stores.trans (one : s.Stores t) (two : t.Stores u) : s.Stores u :=
  ⟨two.stored, fun i low => (two.kept i (low.trans_le one.more)).trans (one.kept i low),
    one.more.trans two.more, two.journal.trans one.journal⟩

theorem Numbers.later {id : Int} {spelling : String} (numbers : Numbers s.spellings id spelling)
    (stores : s.Stores t) : Numbers t.spellings id spelling := by
  obtain ⟨i, e, pos, same, found, named⟩ := numbers
  exact ⟨i, e, pos, same,
    (stores.kept i (Array.getElem?_eq_some_iff.mp found).1).trans found, named⟩

/-- Numbers of spellings are equal exactly for equal spellings. -/
theorem Numbers.eq_iff {p : Spellings} (stored : p.Stored Checksum.ofText) {id id' : Int}
    {spelling spelling' : String} (one : Numbers p id spelling) (two : Numbers p id' spelling') :
    id = id' ↔ spelling = spelling' := by
  obtain ⟨i, e, pos, rfl, found, rfl⟩ := one
  obtain ⟨j, e', pos', rfl, found', rfl⟩ := two
  constructor
  · intro same
    obtain rfl : i = j := Int.ofNat_inj.mp same
    rw [Option.some.inj (found.symm.trans found')]
  · intro same
    rw [stored.distinct i j e e' pos pos' found found' same]

/-- The number of a token is one of its spelling if it is an identifier, and zero otherwise. -/
def Numbered (p : Spellings) (token : Token) : Prop :=
  (token.kind = .identifier → Numbers p token.spelling token.text) ∧
    (token.kind ≠ .identifier → token.spelling = 0)

/-- A lexeme without a string makes its token, and an identifier is stored. -/
theorem lexemeToken_plain (features : Features)
    (stored : s.spellings.Stored Checksum.ofText) (loc : Location) {lexeme : Lexeme}
    (plain : lexeme.Plain) : s.Stores (s.lexemeToken features loc lexeme).1 ∧
    unnumbered (s.lexemeToken features loc lexeme).2 = plainToken features loc lexeme ∧ Numbered
    (s.lexemeToken features loc lexeme).1.spellings (s.lexemeToken features loc lexeme).2 := by
  cases lexeme with
  | endOfInput => exact ⟨.refl stored, rfl, nofun, fun _ => rfl⟩
  | integer => exact ⟨.refl stored, rfl, nofun, fun _ => rfl⟩
  | punctuator kind => exact ⟨.refl stored, rfl, fun same => absurd same plain, fun _ => rfl⟩
  | floating | character | text => exact plain.elim
  | word spelling =>
    simp only [lexemeToken, wordToken, plainToken]
    cases found : Keyword.find? features.englishKeywords features.russianKeywords spelling with
    | some kind =>
      exact ⟨.refl stored, rfl, fun same => absurd same (find?_ne_special found).2, fun _ => rfl⟩
    | none =>
      have interned := stored.interned spelling
      obtain ⟨e, entry, named⟩ := interned.entry
      exact ⟨⟨interned.stored, interned.kept, interned.more, rfl⟩, rfl,
        fun _ => ⟨_, e, interned.pos, rfl, entry, named⟩, fun other => absurd rfl other⟩

/-- Lexemes without strings and notes make their tokens. -/
theorem takeScans_plain (features : Features) (stored : s.spellings.Stored Checksum.ofText)
    {scans : List Scan} (plain : ∀ scan ∈ scans, scan.lexeme.Plain ∧ scan.notes = []) :
    ∃ t tokens, s.takeScans features scans = .ok (t, tokens) ∧ s.Stores t ∧ tokens.map unnumbered =
    scans.map (fun scan => plainToken features ⟨scan.start, scan.stop⟩ scan.lexeme) ∧
    ∀ token ∈ tokens, Numbered t.spellings token := by
  induction scans generalizing s with
  | nil => exact ⟨s, [], rfl, .refl stored, rfl, by simp⟩
  | cons scan rest ih =>
    obtain ⟨⟨here, silent⟩, others⟩ := List.forall_mem_cons.mp plain
    obtain ⟨stores, token, numbered⟩ :=
      lexemeToken_plain features stored ⟨scan.start, scan.stop⟩ here
    obtain ⟨t, tokens, taken, later, made, all⟩ := ih stores.stored others
    refine ⟨t, _, takeScans_cons (silent ▸ rfl) taken, stores.trans later,
      by rw [List.map_cons, List.map_cons, token, made], ?_⟩
    exact List.forall_mem_cons.mpr ⟨⟨fun name => (numbered.1 name).later later, numbered.2⟩, all⟩

/-- A source is read without a report as tokens, in this order and with nothing else but the end of
the input behind them; the numbers of identifiers are equal exactly for equal spellings. -/
def ReadsTokens (s : Session) (features : Features) (name : String) (content : List Char)
    (expected : List Token) : Prop :=
  let stop := s.journal.nextBase + content.length
  ∃ t tokens, s.tokenize features name content = .ok (t, tokens ++ [.bare .endOfInput ⟨stop, stop⟩])
    ∧ t.journal = s.journal.addFile name content.toArray ∧ t.spellings.Stored Checksum.ofText ∧
    tokens.map unnumbered = expected ∧
    ∀ one ∈ tokens, ∀ other ∈ tokens, one.kind = .identifier → other.kind = .identifier →
    (one.spelling = other.spelling ↔ one.text = other.text)

/-- Lexemes in a row are taken in as tokens in a row. -/
theorem readsTokens_placed (stored : s.spellings.Stored Checksum.ofText)
    {features : Features} (name : String) {content : List Char} {gap : Nat}
    {words : List (List Char × Lexeme)} (plain : ∀ word ∈ words, word.2.Plain)
    (scanned : (scanAll features ⟨s.journal.nextBase, content⟩).map row =
      placed gap s.journal.nextBase words ++ [ending (s.journal.nextBase + content.length)]) :
    s.ReadsTokens features name content
    ((placed gap s.journal.nextBase words).map fun r => plainToken features r.2.1 r.1) := by
  set base := s.journal.nextBase with based
  have quiet : ∀ scan ∈ scanAll features ⟨base, content⟩, scan.lexeme.Plain ∧ scan.notes = [] := by
    intro scan mem
    have inRow := List.mem_map_of_mem (f := row) mem
    rw [scanned] at inRow
    rcases List.mem_append.mp inRow with early | last
    · exact placed_plain plain gap base _ early
    · have same := List.mem_singleton.mp last
      simp only [row, ending, Prod.mk.injEq] at same
      exact ⟨same.1 ▸ trivial, same.2.2⟩
  obtain ⟨t, made, taken, stores, same, numbered⟩ :=
    takeScans_plain (s := { s with journal := s.journal.addFile name content.toArray }) features
      stored quiet
  have tokenOf : (fun scan : Scan => plainToken features ⟨scan.start, scan.stop⟩ scan.lexeme) =
      (fun r : Lexeme × Location × List Note => plainToken features r.2.1 r.1) ∘ row := rfl
  rw [tokenOf, ← List.map_map, scanned, List.map_append] at same
  obtain ⟨tokens, final, rfl, first, last⟩ := List.map_eq_append_iff.mp same
  obtain ⟨token, more, rfl, isLast, none⟩ := List.map_eq_cons_iff.mp last
  obtain rfl := List.map_eq_nil_iff.mp none
  have final : token = .bare .endOfInput ⟨base + content.length, base + content.length⟩ := by
    have kind : token.kind = .endOfInput := congrArg Token.kind isLast
    have zero := (numbered token (by simp)).2 (by rw [kind]; decide)
    rw [show token = unnumbered token by rw [unnumbered, ← zero], isLast]
    simp [ending, plainToken]
  refine ⟨t, tokens, ?_, stores.journal, stores.stored, first, ?_⟩
  · rw [final] at taken
    exact taken
  · intro one mem other mem' isName isName'
    exact Numbers.eq_iff stores.stored ((numbered one (List.mem_append_left _ mem)).1 isName)
      ((numbered other (List.mem_append_left _ mem')).1 isName')

/-- Reading undoes spelling. Spelled tokens with single blanks between them are read one by one,
each with the place of its spelling; a text of punctuators without comments is cut into the longest
ones from left to right. -/
theorem tokenize_spelled (s : Session) (features : Features)
    (name : String) (stored : s.spellings.Stored Checksum.ofText) :
    (∀ items : List (List Char × Token), (∀ item ∈ items, Spelled features item.1 item.2) →
      s.ReadsTokens features name (spaced (items.map (·.1))) (inRow 1 s.journal.nextBase items)) ∧
    ∀ text : List Char, Marks text → ¬ ['/', '/'] <:+: text → ¬ ['/', '*'] <:+: text →
    (∃ entries, Cut text entries) ∧ ∀ entries, Cut text entries → s.ReadsTokens features name text
    (inRow 0 s.journal.nextBase (entries.map fun entry => (entry.1, .bare entry.2 .none))) := by
  constructor
  · intro items spelled
    obtain ⟨words, chars, reads, plain, tokens⟩ := exists_words spelled
    rw [← chars, ← tokens]
    exact readsTokens_placed stored name plain (scanAll_spaced words reads _)
  · intro text marks noLine noBlock
    refine ⟨exists_cut marks, fun entries cut => ?_⟩
    have plain : ∀ word ∈ entries.map (fun entry => (entry.1, Lexeme.punctuator entry.2)),
      word.2.Plain := by
      intro word mem
      obtain ⟨entry, inside, rfl⟩ := List.mem_map.mp mem
      exact (punctuators_listed entry (cut.mem entry inside)).2.2.2.2.1
    rw [← map_placed_punctuators features]
    exact readsTokens_placed stored name plain (scanAll_cut cut marks noLine noBlock _)

/-- Words of both languages, a numeral and a punctuator of three characters; and punctuators without
blanks. -/
theorem tokenize_spelled_new :
    let s := Session.new 0 (.new none false)
    s.spellings.Stored Checksum.ofText ∧
      s.ReadsTokens .initial "a" "ЦЕЛ x while 12 <<=".toList [.bare .intWord ⟨0, 3⟩,
      { Token.bare .identifier ⟨4, 5⟩ with text := "x" }, .bare .whileWord ⟨6, 11⟩,
      { Token.bare .intLiteral ⟨12, 14⟩ with text := "12", intValue := 12 },
      .bare .shiftLeftAssign ⟨15, 18⟩] ∧ s.ReadsTokens .initial "a" ['<', '<', '<',
      '='] [.bare .shiftLeft ⟨0, 2⟩, .bare .lessEqual ⟨2, 4⟩] := by
  intro s
  have stored : s.spellings.Stored Checksum.ofText := Spellings.stored_empty _
  obtain ⟨words, marks⟩ := tokenize_spelled s .initial "a" stored
  refine ⟨stored, ?_, ?_⟩
  · have russian : Spelled .initial "ЦЕЛ".toList (.bare .intWord .none) :=
      .keyword (k := ⟨"int", "цел", .intWord⟩) (by simp [Keyword.all])
        (.inr ⟨rfl, .inr (by decide +kernel)⟩)
    have name : Spelled .initial ['x'] { Token.bare .identifier .none with text := "x" } :=
      @Spelled.identifier _ 'x' [] (by decide) (by simp) (by unfold SpellsKeyword; decide +kernel)
    have english : Spelled .initial "while".toList (.bare .whileWord .none) :=
      .keyword (k := ⟨"while", "пока", .whileWord⟩) (by simp [Keyword.all]) (.inl ⟨rfl, .inl rfl⟩)
    have number : Spelled .initial ['1', '2'] { Token.bare .intLiteral .none with
      text := "12"
      intValue := 12 } :=
      .numeral (by simp) (by simp [isDigit]) (by decide +kernel)
    have mark : Spelled .initial ['<', '<', '='] (.bare .shiftLeftAssign .none) :=
      .punctuator (by decide)
    exact words [(_, _), (_, _), (_, _), (_, _),
      (_, _)] (by simpa using ⟨russian, name, english, number, mark⟩)
  · have cut : Cut ['<', '<', '<', '='] [(['<', '<'], .shiftLeft), (['<', '='], .lessEqual)] :=
      @Cut.cons (['<', '<'], .shiftLeft) _ _ (by decide) (punctuator?_longest rfl)
        (@Cut.cons (['<', '='], .lessEqual) _ _ (by decide) (punctuator?_longest rfl) .nil)
    have isMarks : Marks ['<', '<', '<', '='] := by
      simp only [Marks, List.forall_mem_cons]
      exact ⟨rfl, rfl, rfl, rfl, by simp⟩
    exact (marks ['<', '<', '<', '='] isMarks (by decide) (by decide)).2 _ cut

end Session

end BilingualC
