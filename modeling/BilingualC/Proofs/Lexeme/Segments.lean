import Mathlib
import BilingualC.Lexeme
import BilingualC.Proofs.Path

/-!
# The segments of a source

A source is a row of segments: what its lexemes cover, and between them blanks, comments and
characters that start no lexeme. A block comment that is never closed is the last segment. Every
segment is known by itself and by what comes after it (`Segment.Fits`), and of the notes about a
source those about comments and strange characters can be read off its segments
(`Segment.findings`).

Main result: `Lexeme.scanAll_segments` gives the segments of any source. The lexemes cover their
segments in order, the end of the input comes after all of them, and a strange character or an open
comment is noted once and where it is.
-/

namespace BilingualC

/-- A part of a source. -/
inductive Segment where
  | lexeme (chars : List Char)
  | blank (c : Char)
  | comment (chars : List Char)
  /-- A block comment that is never closed. -/
  | openComment (chars : List Char)
  /-- A character that starts no lexeme. -/
  | stray (c : Char)
deriving DecidableEq, Repr

namespace Segment

open Lexeme

def chars : Segment → List Char
  | .lexeme chars | .comment chars | .openComment chars => chars
  | .blank c | .stray c => [c]

def isLexeme : Segment → Bool
  | .lexeme _ => true
  | _ => false

/-- The source that segments make up. -/
def source (segments : List Segment) : List Char := segments.flatMap chars

/-- Says whether a character starts a lexeme, whatever comes after it. -/
def startsLexeme (c : Char) : Bool :=
  isLetter c || isDigit c || c == '"' || c == '\'' || (punctuator? [c]).isSome

/-- A closed block comment: its body does not contain the closing mark. -/
def IsBlock (chars : List Char) : Prop :=
  ∃ body, chars = '/' :: '*' :: body ++ ['*', '/'] ∧ ¬ ['*', '/'] <:+: body

/-- A line comment in front of the end of its line. -/
def IsLine (chars rest : List Char) : Prop :=
  ∃ body, chars = '/' :: '/' :: body ∧ '\n' ∉ body ∧ (rest = [] ∨ rest.head? = some '\n')

/-- A segment is what it says it is, in front of the rest of its source. -/
def Fits (lineComments : Bool) (rest : List Char) : Segment → Prop
  | .lexeme chars => chars ≠ []
  | .blank c => isLayout c = true
  | .comment chars => IsBlock chars ∨ (lineComments = true ∧ IsLine chars rest)
  | .openComment chars => rest = [] ∧ ∃ body, chars = '/' :: '*' :: body ∧ ¬ ['*', '/'] <:+: body
  | .stray c => isLayout c = false ∧ startsLexeme c = false

/-- All segments are what they say they are. -/
def AllFit (lineComments : Bool) : List Segment → List Char → Prop
  | [], _ => True
  | s :: more, rest => s.Fits lineComments (source more ++ rest) ∧ AllFit lineComments more rest

/-- What is noted about segments between lexemes, for a source that starts at an offset. -/
def findings : Nat → List Segment → List Note
  | _, [] => []
  | pos, s :: more =>
    let rest := findings (pos + s.chars.length) more
    match s with
    | .openComment _ => errorNote pos (pos + 2) (.plain .unterminatedComment) :: rest
    | .stray c => errorNote pos (pos + 1) (.lettered .badCharacter c.toNat) :: rest
    | _ => rest

/-- The ranges that the lexemes cover. -/
def ranges : Nat → List Segment → List (Nat × Nat)
  | _, [] => []
  | pos, s :: more =>
    let rest := ranges (pos + s.chars.length) more
    if s.isLexeme then (pos, pos + s.chars.length) :: rest else rest

/-- Says whether a note is about a segment between lexemes. -/
def isFinding (n : Note) : Bool :=
  n.diagnostic.code == .badCharacter || n.diagnostic.code == .unterminatedComment

/-- There is no lexeme among the segments. -/
def Gap (segments : List Segment) : Prop := ∀ s ∈ segments, s.isLexeme = false

variable {lineComments : Bool} {first second segments : List Segment} {rest : List Char} {pos : Nat}

@[simp] theorem source_nil : source [] = [] := rfl

@[simp] theorem source_cons (s : Segment) (more : List Segment) :
    source (s :: more) = s.chars ++ source more :=
  rfl

@[simp] theorem source_append (first second : List Segment) :
    source (first ++ second) = source first ++ source second :=
  List.flatMap_append

theorem allFit_append : AllFit lineComments (first ++ second) rest ↔
    AllFit lineComments first (source second ++ rest) ∧ AllFit lineComments second rest := by
  induction first with
  | nil => simp [AllFit]
  | cons s more ih =>
    simp only [List.cons_append, AllFit, source_append, ih, List.append_assoc, and_assoc]

theorem findings_append (pos : Nat) (first second : List Segment) : findings pos (first ++ second) =
    findings pos first ++ findings (pos + (source first).length) second := by
  induction first generalizing pos with
  | nil => rfl
  | cons s more ih =>
    have sum : pos + s.chars.length + (source more).length = pos + (source (s :: more)).length := by
      rw [source_cons, List.length_append, Nat.add_assoc]
    cases s <;> simp only [List.cons_append, findings, ih, sum]

theorem ranges_append (pos : Nat) (first second : List Segment) : ranges pos (first ++ second) =
    ranges pos first ++ ranges (pos + (source first).length) second := by
  induction first generalizing pos with
  | nil => rfl
  | cons s more ih =>
    have sum : pos + s.chars.length + (source more).length = pos + (source (s :: more)).length := by
      rw [source_cons, List.length_append, Nat.add_assoc]
    cases s <;> simp [ranges, ih, sum, isLexeme]

theorem filter_findings (pos : Nat) (segments : List Segment) :
    (findings pos segments).filter isFinding = findings pos segments := by
  induction segments generalizing pos with
  | nil => rfl
  | cons s more ih =>
    cases s with
    | lexeme | blank | comment => exact ih _
    | openComment chars =>
      exact congrArg (errorNote pos (pos + 2) (.plain .unterminatedComment) :: ·) (ih _)
    | stray c =>
      exact congrArg (errorNote pos (pos + 1) (.lettered .badCharacter c.toNat) :: ·) (ih _)

theorem Gap.ranges_eq_nil (gap : Gap segments) (pos : Nat) : ranges pos segments = [] := by
  induction segments generalizing pos with
  | nil => rfl
  | cons s more ih =>
    obtain ⟨here, later⟩ := List.forall_mem_cons.mp gap
    simp [ranges, here, ih later]

/-- The ranges of lexemes are not empty, and they come one after the other. -/
theorem ranges_ordered (fit : AllFit lineComments segments rest) (pos : Nat) :
    (∀ r ∈ ranges pos segments, pos ≤ r.1 ∧ r.1 < r.2 ∧ r.2 ≤ pos + (source segments).length) ∧
      (ranges pos segments).Pairwise fun r r' => r.2 ≤ r'.1 := by
  induction segments generalizing pos with
  | nil => exact ⟨fun _ mem => (List.not_mem_nil mem).elim, .nil⟩
  | cons s more ih =>
    obtain ⟨inside, ordered⟩ := ih fit.2 (pos + s.chars.length)
    have later (r : Nat × Nat) (mem : r ∈ ranges (pos + s.chars.length) more) :
        pos + s.chars.length ≤ r.1 ∧ r.1 < r.2 ∧ r.2 ≤ pos + (source (s :: more)).length := by
      rw [source_cons, List.length_append, ← Nat.add_assoc]
      exact inside r mem
    rw [ranges]
    split
    next taken =>
      have some : 0 < s.chars.length := by
        cases s with
        | lexeme chars => exact List.length_pos_iff.mpr fit.1
        | blank | comment | openComment | stray => cases taken
      refine ⟨List.forall_mem_cons.mpr ⟨⟨Nat.le_refl _, by omega, ?_⟩, fun r mem => ?_⟩,
        List.pairwise_cons.mpr ⟨fun r mem => (later r mem).1, ordered⟩⟩
      · rw [source_cons, List.length_append]
        omega
      · have := later r mem
        omega
    next =>
      exact ⟨fun r mem => ⟨by have := later r mem; omega, (later r mem).2⟩, ordered⟩

end Segment

/-- A note about something up to an offset. -/
def Note.Below (limit : Nat) (n : Note) : Prop :=
  (0 ≤ n.loc.start ∧ n.loc.start ≤ limit) ∧ 0 ≤ n.loc.stop ∧ n.loc.stop ≤ limit

theorem Lexeme.errorNote_below {limit start stop : Nat} (d : Diagnostic) (low : start ≤ limit)
    (high : stop ≤ limit) : (errorNote start stop d).Below limit :=
  ⟨⟨Int.natCast_nonneg _, Int.ofNat_le.mpr low⟩, Int.natCast_nonneg _, Int.ofNat_le.mpr high⟩

namespace Cursor

open Segment

/-- The end of the source. -/
def limit (c : Cursor) : Nat := c.pos + c.rest.length

theorem pos_le_limit (c : Cursor) : c.pos ≤ c.limit := Nat.le_add_right _ _

/-- A later place of the same source. -/
structure Advances (c next : Cursor) : Prop where
  suffix : next.rest <:+ c.rest
  limit : next.limit = c.limit

/-- What lies between two places of a source. -/
structure Covers (lineComments : Bool) (c next : Cursor) (segments : List Segment) : Prop where
  rest : c.rest = source segments ++ next.rest
  pos : next.pos = c.pos + (source segments).length
  fit : AllFit lineComments segments next.rest

variable {c d e : Cursor} {lineComments : Bool} {first second segments : List Segment}

theorem Advances.refl (c : Cursor) : c.Advances c := ⟨List.suffix_rfl, rfl⟩

theorem Advances.trans (one : c.Advances d) (two : d.Advances e) : c.Advances e :=
  ⟨two.suffix.trans one.suffix, two.limit.trans one.limit⟩

theorem Advances.step (pos : Nat) (a : Char) (cs : List Char) :
    Advances ⟨pos, a :: cs⟩ ⟨pos + 1, cs⟩ :=
  ⟨List.suffix_cons a cs, by simp only [Cursor.limit, List.length_cons]; omega⟩

theorem Advances.two (pos : Nat) (a b : Char) (cs : List Char) :
    Advances ⟨pos, a :: b :: cs⟩ ⟨pos + 2, cs⟩ :=
  (Advances.step pos a (b :: cs)).trans (.step (pos + 1) b cs)

theorem Advances.le (ahead : c.Advances d) : c.pos ≤ d.pos := by
  have short := ahead.suffix.length_le
  have same := ahead.limit
  simp only [Cursor.limit] at same
  omega

theorem Advances.le_limit (ahead : c.Advances d) : d.pos ≤ c.limit := ahead.limit ▸ d.pos_le_limit

/-- What was passed over. -/
theorem Advances.taken (ahead : c.Advances d) : c.rest = c.rest.take (d.pos - c.pos) ++ d.rest ∧
    (c.rest.take (d.pos - c.pos)).length = d.pos - c.pos := by
  obtain ⟨before, whole⟩ := ahead.suffix
  have same := ahead.limit
  have length : before.length = d.pos - c.pos := by
    rw [Cursor.limit, Cursor.limit, ← whole, List.length_append] at same
    omega
  rw [← whole, ← length, List.take_left]
  exact ⟨rfl, rfl⟩

theorem Covers.nil (lineComments : Bool) (c : Cursor) : c.Covers lineComments c [] :=
  ⟨rfl, rfl, trivial⟩

theorem Covers.limit (covers : c.Covers lineComments d segments) : d.limit = c.limit := by
  rw [Cursor.limit, Cursor.limit, covers.pos, covers.rest, List.length_append, Nat.add_assoc]

theorem Covers.append (one : c.Covers lineComments d first) (two : d.Covers lineComments e second) :
    c.Covers lineComments e (first ++ second) where
  rest := by rw [one.rest, two.rest, source_append, List.append_assoc]
  pos := by rw [two.pos, one.pos, source_append, List.length_append, Nat.add_assoc]
  fit := allFit_append.mpr ⟨two.rest ▸ one.fit, two.fit⟩

theorem Covers.single {s : Segment} (rest : c.rest = s.chars ++ d.rest)
    (pos : d.pos = c.pos + s.chars.length)
    (fit : s.Fits lineComments d.rest) : c.Covers lineComments d [s] where
  rest := by simpa using rest
  pos := by simpa using pos
  fit := ⟨by simpa using fit, trivial⟩

/-- What is noted about segments is noted about this source. -/
theorem Covers.below (covers : c.Covers lineComments d segments) :
    ∀ n ∈ findings c.pos segments, n.Below c.limit := by
  obtain ⟨pos, rest⟩ := c
  have whole := covers.rest
  have fit := covers.fit
  simp only at whole
  induction segments generalizing pos rest with
  | nil => exact fun _ mem => (List.not_mem_nil mem).elim
  | cons s more ih =>
    have here : Covers lineComments ⟨pos, rest⟩ ⟨pos + s.chars.length, source more ++ d.rest⟩ [s] :=
      .single (by rw [whole, source_cons, List.append_assoc]) rfl fit.1
    have later := ih (pos + s.chars.length) (source more ++ d.rest)
      ⟨rfl, by rw [covers.pos, source_cons, List.length_append]; simp only; omega, fit.2⟩ rfl fit.2
    rw [here.limit] at later
    have size := here.limit
    have low := pos_le_limit ⟨pos + s.chars.length, source more ++ d.rest⟩
    rw [size] at low
    cases s with
    | lexeme | blank | comment => exact later
    | openComment chars =>
      obtain ⟨-, body, rfl, -⟩ := fit.1
      simp only [Segment.chars, List.length_cons] at low
      exact List.forall_mem_cons.mpr
        ⟨Lexeme.errorNote_below _ (by simp only; omega) (by simp only; omega), later⟩
    | stray a =>
      simp only [Segment.chars, List.length_cons, List.length_nil] at low
      exact List.forall_mem_cons.mpr ⟨Lexeme.errorNote_below _ (by simp only; omega) low, later⟩

theorem Covers.lexeme (lineComments : Bool) (ahead : c.Advances d) (more : c.pos < d.pos) :
    c.Covers lineComments d [.lexeme (c.rest.take (d.pos - c.pos))] := by
  obtain ⟨rest, length⟩ := ahead.taken
  refine .single rest (by rw [Segment.chars, length]; omega) fun empty => ?_
  rw [empty] at length
  simp only [List.length_nil] at length
  omega

end Cursor

namespace Lexeme

open Segment Cursor

/-! ## Between lexemes -/

theorem closeComment_some {pos : Nat} {cs : List Char} {next : Cursor}
    (closed : closeComment pos cs = some next) : ∃ body, cs = body ++ '*' :: '/' :: next.rest ∧
    next.pos = pos + body.length + 2 ∧ ¬ ['*', '/'] <:+: body := by
  fun_induction closeComment pos cs with
  | case1 => cases closed
  | case2 pos cs =>
    cases closed
    exact ⟨[], rfl, rfl, by simp⟩
  | case3 pos a tail apart ih =>
    obtain ⟨body, rfl, ends, none⟩ := ih closed
    refine ⟨a :: body, rfl, by rw [ends, List.length_cons]; omega, ?_⟩
    rintro ⟨before, after, whole⟩
    cases before with
    | nil =>
      obtain ⟨rfl, rfl⟩ : '*' = a ∧ '/' :: after = body := by simpa using whole
      exact apart (after ++ '*' :: '/' :: next.rest) rfl (by simp)
    | cons b before =>
      obtain ⟨-, rfl⟩ : b = a ∧ before ++ '*' :: '/' :: after = body := by simpa using whole
      exact none ⟨before, after, by simp⟩

theorem closeComment_none {pos : Nat} {cs : List Char} (missing : closeComment pos cs = none) :
    ¬ ['*', '/'] <:+: cs := by
  fun_induction closeComment pos cs with
  | case1 => simp
  | case2 => cases missing
  | case3 pos a tail apart ih =>
    rintro ⟨before, after, whole⟩
    cases before with
    | nil =>
      obtain ⟨rfl, rfl⟩ : '*' = a ∧ '/' :: after = tail := by simpa using whole
      exact apart after rfl rfl
    | cons b before =>
      obtain ⟨-, rfl⟩ : b = a ∧ before ++ '*' :: '/' :: after = tail := by simpa using whole
      exact ih missing ⟨before, after, by simp⟩

theorem skipLine_spec (pos : Nat) (cs : List Char) : ∃ body, cs = body ++ (skipLine pos cs).rest ∧
    (skipLine pos cs).pos = pos + body.length ∧ '\n' ∉ body ∧
    ((skipLine pos cs).rest = [] ∨ (skipLine pos cs).rest.head? = some '\n') := by
  fun_induction skipLine pos cs with
  | case1 => exact ⟨[], rfl, rfl, by simp, .inl rfl⟩
  | case2 pos c cs newLine =>
    obtain rfl : c = '\n' := by simpa using newLine
    exact ⟨[], rfl, rfl, by simp, .inr rfl⟩
  | case3 pos c cs more ih =>
    obtain ⟨body, whole, ends, inside, stop⟩ := ih
    have other : '\n' ≠ c := fun same => more (by simp [← same])
    exact ⟨c :: body, congrArg (c :: ·) whole, by rw [ends, List.length_cons]; omega,
      by simp [other, inside], stop⟩

/-- What blanks and comments are passed over, and what is noted about them. -/
theorem skipBlanks_covers (lineComments : Bool) (c : Cursor) :
    ∃ gap, Gap gap ∧ c.Covers lineComments (skipBlanks lineComments c).1 gap ∧
      (skipBlanks lineComments c).2 = findings c.pos gap := by
  fun_induction skipBlanks lineComments c with
  | case1 pos => exact ⟨[], by simp [Gap], .nil _ _, rfl⟩
  | case2 pos cs next closed ih =>
    obtain ⟨gap, between, covers, notes⟩ := ih
    obtain ⟨body, whole, ends, inner⟩ := closeComment_some closed
    set s : Segment := .comment ('/' :: '*' :: body ++ ['*', '/']) with comment
    have length : s.chars.length = body.length + 4 := by simp [comment, chars]
    have here : Covers lineComments ⟨pos, '/' :: '*' :: cs⟩ next [s] :=
      .single (by simp [comment, chars, whole]) (by rw [ends, length]; simp only; omega)
        (.inl ⟨body, rfl, inner⟩)
    refine ⟨s :: gap, List.forall_mem_cons.mpr ⟨rfl, between⟩, here.append covers, ?_⟩
    rw [notes, here.pos, source_cons, source_nil, List.append_nil]
    rfl
  | case3 pos cs missing =>
    set s : Segment := .openComment ('/' :: '*' :: cs) with comment
    refine ⟨[s], by simp [Gap, comment, isLexeme],
      .single ?_ ?_ ⟨rfl, cs, rfl, closeComment_none missing⟩, rfl⟩
    · simp [comment, chars]
    · simp only [comment, chars, List.length_cons]
      omega
  | case4 pos cs allowed ih =>
    obtain ⟨gap, between, covers, notes⟩ := ih
    obtain ⟨body, whole, ends, inner, stop⟩ := skipLine_spec (pos + 2) cs
    set s : Segment := .comment ('/' :: '/' :: body) with comment
    have length : s.chars.length = body.length + 2 := by simp [comment, chars]
    have here : Covers lineComments ⟨pos, '/' :: '/' :: cs⟩ (skipLine (pos + 2) cs) [s] :=
      .single (by simpa [comment, chars] using whole) (by rw [ends, length]; simp only; omega)
        (.inr ⟨allowed, body, rfl, inner, stop⟩)
    refine ⟨s :: gap, List.forall_mem_cons.mpr ⟨rfl, between⟩, here.append covers, ?_⟩
    rw [notes, here.pos, source_cons, source_nil, List.append_nil]
    rfl
  | case5 => exact ⟨[], by simp [Gap], .nil _ _, rfl⟩
  | case6 pos a cs _ _ layout ih =>
    obtain ⟨gap, between, covers, notes⟩ := ih
    have here : Covers lineComments ⟨pos, a :: cs⟩ ⟨pos + 1, cs⟩ [.blank a] :=
      .single rfl rfl layout
    exact ⟨.blank a :: gap, List.forall_mem_cons.mpr ⟨rfl, between⟩, here.append covers, notes⟩
  | case7 => exact ⟨[], by simp [Gap], .nil _ _, rfl⟩

/-- A source that goes on after blanks goes on with something else, and nothing is noted about
them. -/
theorem skipBlanks_stops {lineComments : Bool} {c : Cursor} {a : Char} {cs : List Char}
    (more : (skipBlanks lineComments c).1.rest = a :: cs) :
    isLayout a = false ∧ (skipBlanks lineComments c).2 = [] := by
  fun_induction skipBlanks lineComments c with
  | case1 => cases more
  | case2 pos cs next closed ih => exact ih more
  | case3 => cases more
  | case4 pos cs allowed ih => exact ih more
  | case5 =>
    cases more
    exact ⟨by decide, rfl⟩
  | case6 pos a cs _ _ layout ih => exact ih more
  | case7 pos a cs _ _ other =>
    cases more
    exact ⟨by simpa using other, rfl⟩

/-! ## Lexemes -/

theorem spanWhile_advances (p : Char → Bool) (c : Cursor) : c.Advances (spanWhile p c).2 := by
  refine ⟨List.dropWhile_suffix p, ?_⟩
  have whole := congrArg List.length (List.takeWhile_append_dropWhile (p := p) (l := c.rest))
  rw [List.length_append] at whole
  simp only [spanWhile, limit]
  omega

theorem fractionEnd_advances (c : Cursor) : c.Advances (fractionEnd c) := by
  obtain ⟨pos, rest⟩ := c
  unfold fractionEnd scanFraction
  split
  next cs shape =>
    obtain rfl : rest = '.' :: cs := shape
    exact (Advances.step pos '.' cs).trans (spanWhile_advances isDigit ⟨pos + 1, cs⟩)
  next => exact .refl _

theorem scanSign_advances (c : Cursor) : c.Advances (scanSign c).2 := by
  obtain ⟨pos, rest⟩ := c
  unfold scanSign
  split
  next cs shape =>
    obtain rfl : rest = '+' :: cs := shape
    exact .step pos '+' cs
  next cs shape =>
    obtain rfl : rest = '-' :: cs := shape
    exact .step pos '-' cs
  next => exact .refl _

theorem exponentEnd_advances (start : Nat) (c : Cursor) : c.Advances (exponentEnd start c) := by
  obtain ⟨pos, rest⟩ := c
  unfold exponentEnd scanExponent
  split
  next => exact .refl _
  next mark cs shape =>
    obtain rfl : rest = mark :: cs := shape
    split
    · exact ((Advances.step pos mark cs).trans (scanSign_advances ⟨pos + 1, cs⟩)).trans
        (spanWhile_advances isDigit (scanSign ⟨pos + 1, cs⟩).2)
    · exact .refl _

/-- Notes about what lies inside a lexeme, up to an offset. -/
def Inner (limit : Nat) (notes : List Note) : Prop :=
  ∀ n ∈ notes, isFinding n = false ∧ n.Below limit

/-- Says whether a lexeme makes the token for the end of the input, or an identifier without a
spelling. -/
def isSpecial : Lexeme → Bool
  | .endOfInput => true
  | .punctuator kind => kind == .endOfInput || kind == .identifier
  | _ => false

theorem isEnd_of_isSpecial {lexeme : Lexeme} (other : lexeme.isSpecial = false) :
    lexeme.isEnd = false := by
  cases lexeme with
  | endOfInput => cases other
  | word | punctuator | integer | floating | character | text => rfl

/-- A lexeme was taken from a place: it ends at another place, and blanks and comments behind it
were passed over. -/
structure Takes (lineComments : Bool) (c : Cursor) (scan : Scan) (ending : Cursor)
    (gap : List Segment) : Prop where
  lexeme : scan.lexeme.isSpecial = false
  start : scan.start = c.pos
  stop : scan.stop = ending.pos
  ahead : c.Advances ending
  more : c.pos < ending.pos
  between : Gap gap
  behind : ending.Covers lineComments scan.next gap
  notes : scan.notes.filter isFinding = findings ending.pos gap
  below : ∀ n ∈ scan.notes, n.Below c.limit

variable {limit : Nat}

theorem Inner.filter {notes : List Note} (inner : Inner limit notes) :
    notes.filter isFinding = [] :=
  List.filter_eq_nil_iff.mpr fun n mem => by simp [(inner n mem).1]

theorem Inner.append {first second : List Note} (one : Inner limit first)
    (two : Inner limit second) : Inner limit (first ++ second) :=
  fun n mem => (List.mem_append.mp mem).elim (one n) (two n)

theorem inner_nil (limit : Nat) : Inner limit [] := fun _ mem => (List.not_mem_nil mem).elim

theorem inner_single {n : Note} (other : isFinding n = false) (below : n.Below limit) :
    Inner limit [n] :=
  fun _ mem => List.mem_singleton.mp mem ▸ ⟨other, below⟩

theorem inner_error {start stop : Nat} {d : Diagnostic}
    (other : isFinding (errorNote start stop d) = false)
    (low : start ≤ limit) (high : stop ≤ limit) : Inner limit [errorNote start stop d] :=
  inner_single other (errorNote_below d low high)

theorem inner_ite {p : Prop} [Decidable p] {first second : List Note} (one : Inner limit first)
    (two : Inner limit second) : Inner limit (if p then first else second) := by
  split
  · exact one
  · exact two

variable {lineComments : Bool} {c : Cursor} {scan : Scan}

/-- A lexeme with nothing passed over behind it. -/
theorem Takes.plain (lexeme : scan.lexeme.isSpecial = false) (start : scan.start = c.pos)
    (stop : scan.stop = scan.next.pos) (ahead : c.Advances scan.next) (more : c.pos < scan.next.pos)
    (inner : Inner c.limit scan.notes) : Takes lineComments c scan scan.next [] :=
  ⟨lexeme, start, stop, ahead, more, by simp [Gap], .nil _ _, inner.filter,
    fun n mem => (inner n mem).2⟩

theorem advances_pos {c d : Cursor} (ahead : c.Advances d)
    (shorter : d.rest.length < c.rest.length) : c.pos < d.pos := by
  have same := ahead.limit
  simp only [limit] at same
  omega

theorem takes_word (pos : Nat) (a : Char) (cs : List Char) (letter : isLetter a = true) :
    Takes lineComments ⟨pos, a :: cs⟩ (scanWord ⟨pos, a :: cs⟩) (scanWord ⟨pos, a :: cs⟩).next [] :=
    by
  have ahead := spanWhile_advances isWordChar ⟨pos, a :: cs⟩
  have short := spanWhile_shrinks isWordChar pos a cs (by simp [isWordChar, letter])
  exact .plain rfl rfl rfl ahead (advances_pos ahead (Nat.lt_succ_of_le short)) (inner_nil _)

/-! ## Numbers -/

theorem inner_exponent {start : Nat} {c next : Cursor} {negative : Bool} {digits : List Char}
    {notes : List Note} (found : scanExponent start c = some (negative, digits, notes, next))
    (low : start ≤ c.limit) : Inner c.limit notes := by
  obtain ⟨pos, rest⟩ := c
  unfold scanExponent at found
  split at found
  next => cases found
  next mark cs shape =>
    obtain rfl : rest = mark :: cs := shape
    split at found
    · simp only [Option.some.injEq, Prod.mk.injEq] at found
      have high := ((Advances.step pos mark cs).trans (scanSign_advances ⟨pos + 1, cs⟩)).le_limit
      exact found.2.2.1 ▸ inner_ite (inner_error rfl low high) (inner_nil _)
    · cases found

theorem takes_wholeNumber {c stop : Cursor} {text : String}
    {digits : Accumulator} {floatValue : Binary64} {notes : List Note}
    (ahead : c.Advances stop) (more : c.pos < stop.pos) (inner : Inner c.limit notes) :
    Takes lineComments c (wholeNumber c.pos stop text digits floatValue notes) stop [] := by
  unfold wholeNumber
  split
  · have below := errorNote_below (.plain .intOverflow) c.pos_le_limit ahead.le_limit
    exact .plain rfl rfl rfl ahead more (inner.append (inner_single rfl below))
  · exact .plain rfl rfl rfl ahead more inner

theorem takes_decimal (pos : Nat) (a : Char) (cs : List Char) (number : startsNumber a cs = true) :
    Takes lineComments ⟨pos, a :: cs⟩ (scanDecimal ⟨pos, a :: cs⟩)
    (scanDecimal ⟨pos, a :: cs⟩).next [] := by
  have short := scanDecimal_shrinks pos a cs number
  have next := scanDecimal_next ⟨pos, a :: cs⟩
  set whole := spanWhile isDigit ⟨pos, a :: cs⟩ with wholeIs
  have ahead : Cursor.Advances ⟨pos, a :: cs⟩ (exponentEnd pos (fractionEnd whole.2)) :=
    ((spanWhile_advances isDigit _).trans (fractionEnd_advances _)).trans
      (exponentEnd_advances pos _)
  rw [next] at short ⊢
  have more := advances_pos ahead (Nat.lt_succ_of_le short)
  have middle := (spanWhile_advances isDigit ⟨pos, a :: cs⟩).trans (fractionEnd_advances whole.2)
  have inner : Inner (Cursor.limit ⟨pos, a :: cs⟩)
    (((scanExponent pos (fractionEnd whole.2)).map (·.2.2.1)).getD []) := by
    cases found : scanExponent pos (fractionEnd whole.2) with
    | none => exact inner_nil _
    | some result => exact middle.limit ▸ inner_exponent found (middle.le.trans (pos_le_limit _))
  unfold scanDecimal
  dsimp only
  rw [← wholeIs]
  split
  · exact .plain rfl rfl rfl ahead more inner
  · exact takes_wholeNumber ahead more inner

theorem inner_badDigits (radix pos : Nat) (digits : List Char)
    (high : pos + digits.length ≤ limit) : Inner limit (badDigits radix pos digits) := by
  induction digits generalizing pos with
  | nil => exact inner_nil _
  | cons d rest ih =>
    rw [List.length_cons] at high
    have later := ih (pos + 1) (by omega)
    rw [badDigits]
    split
    · exact List.forall_mem_cons.mpr ⟨⟨rfl, errorNote_below _ (by omega) (by omega)⟩, later⟩
    · exact later

theorem takes_number (radixPrefixes : Bool) (pos : Nat) (a : Char)
    (cs : List Char) (number : startsNumber a cs = true) :
    Takes lineComments ⟨pos, a :: cs⟩ (scanNumber radixPrefixes ⟨pos, a :: cs⟩)
    (scanNumber radixPrefixes ⟨pos, a :: cs⟩).next [] := by
  unfold scanNumber
  split
  next mark rest shape =>
    cases shape
    split
    next radix known =>
      have ahead := (Cursor.Advances.two pos '0' mark rest).trans
        (spanWhile_advances isWordChar ⟨pos + 2, rest⟩)
      have more : pos < (spanWhile isWordChar ⟨pos + 2, rest⟩).2.pos :=
        Nat.lt_of_lt_of_le (Nat.lt_add_of_pos_right (by decide))
          (spanWhile_advances isWordChar ⟨pos + 2, rest⟩).le
      unfold scanRadix
      dsimp only
      rw [wholeNumber_next]
      refine takes_wholeNumber ahead more (.append (inner_badDigits _ _ _ ?_)
        (inner_ite (inner_error rfl (pos_le_limit ⟨pos, _⟩) ahead.le_limit) (inner_nil _)))
      exact ahead.le_limit
    next => exact takes_decimal pos '0' (mark :: rest) number
  next => exact takes_decimal pos a cs number

/-! ## Characters and strings -/

theorem inner_escapeNotes (pos : Nat) (c : Char) (high : pos + 2 ≤ limit) :
    Inner limit (escapeNotes pos c) :=
  inner_ite (inner_nil _) (inner_error rfl (by omega) high)

theorem takes_closeCharacter {start : Nat} {value : Char}
    {notes : List Note} {c d : Cursor} (here : start = c.pos)
    (ahead : c.Advances d) (more : c.pos < d.pos) (inner : Inner c.limit notes) : Takes lineComments
    c (closeCharacter start value notes d) (closeCharacter start value notes d).next [] := by
  obtain ⟨pos, rest⟩ := d
  unfold closeCharacter
  split
  next cs shape =>
    obtain rfl : rest = '\'' :: cs := shape
    exact .plain rfl here rfl (ahead.trans (.step pos '\'' cs)) (Nat.lt_succ_of_lt more) inner
  next =>
    exact .plain rfl here rfl ahead more
      (inner.append (inner_error rfl (here ▸ c.pos_le_limit) ahead.le_limit))

theorem takes_character (pos : Nat) (a : Char) (cs : List Char) :
    Takes lineComments ⟨pos, a :: cs⟩ (scanCharacter pos cs) (scanCharacter pos cs).next [] := by
  have low := pos_le_limit ⟨pos, a :: cs⟩
  have step := Advances.step pos a cs
  unfold scanCharacter
  split
  · exact .plain rfl rfl rfl step (Nat.lt_succ_self _) (inner_error rfl low step.le_limit)
  next cs =>
    have two := Advances.two pos a '\'' cs
    exact .plain rfl rfl rfl two (by simp only; omega) (inner_error rfl low two.le_limit)
  · exact .plain rfl rfl rfl step (Nat.lt_succ_self _) (inner_error rfl low step.le_limit)
  · have two := Advances.two pos a '\\' []
    exact takes_closeCharacter rfl two (by simp only; omega)
      (inner_error rfl step.le_limit two.le_limit)
  next c cs =>
    have three := step.trans (.two (pos + 1) '\\' c cs)
    exact takes_closeCharacter rfl three (by simp only; omega)
      (inner_escapeNotes _ _ three.le_limit)
  · exact takes_closeCharacter rfl (.two pos a _ _) (by simp only; omega) (inner_nil _)

theorem inner_piece {start : Nat} (pos : Nat) (cs : List Char) (first : start ≤ pos) :
    Inner (Cursor.limit ⟨pos, cs⟩) (scanPiece start pos cs).notes := by
  fun_induction scanPiece start pos cs with
  | case1 pos | case2 pos =>
    exact inner_error rfl (first.trans (pos_le_limit ⟨pos, _⟩)) (pos_le_limit ⟨pos, _⟩)
  | case3 => exact inner_nil _
  | case4 pos =>
    have step := (Advances.step pos '\\' []).le_limit
    have low := pos_le_limit ⟨pos, ['\\']⟩
    exact (inner_error rfl low step).append (inner_error rfl (first.trans low) step)
  | case5 pos c cs ih =>
    have two := Advances.two pos '\\' c cs
    exact (inner_escapeNotes pos c two.le_limit).append (two.limit ▸ ih (by omega))
  | case6 pos c cs _ _ _ _ ih =>
    exact (inner_nil _).append ((Advances.step pos c cs).limit ▸ ih (by omega))

theorem scanPiece_advances (start pos : Nat) (cs : List Char) :
    Cursor.Advances ⟨pos, cs⟩ (scanPiece start pos cs).next := by
  fun_induction scanPiece start pos cs with
  | case1 | case2 => exact .refl _
  | case3 pos cs => exact .step pos '"' cs
  | case4 pos => exact .step pos '\\' []
  | case5 pos c cs ih => exact (Cursor.Advances.two pos '\\' c cs).trans ih
  | case6 pos c cs _ _ _ _ ih => exact (Cursor.Advances.step pos c cs).trans ih

/-- The pieces of a string end with the last of them; what was passed over behind it is a gap. -/
theorem scanPieces_spec (lineComments : Bool) {start : Nat} (c : Cursor) (first : start ≤ c.pos) :
    ∃ ending gap, c.Advances ending ∧ (scanPieces lineComments start c).2.1 = ending.pos ∧ Gap gap ∧
      ending.Covers lineComments (scanPieces lineComments start c).2.2.2 gap ∧
      (scanPieces lineComments start c).2.2.1.filter isFinding = findings ending.pos gap ∧
      ∀ n ∈ (scanPieces lineComments start c).2.2.1, n.Below c.limit := by
  fun_induction scanPieces lineComments start c with
  | case1 c piece after pos cs following chars stop notes next result ih =>
    obtain ⟨skipped, -, covers, -⟩ := skipBlanks_covers lineComments piece.next
    have quote : (skipBlanks lineComments piece.next).1 = ⟨pos, '"' :: cs⟩ := following
    have silent := (skipBlanks_stops (congrArg Cursor.rest quote)).2
    rw [quote] at covers
    have reach : piece.next.Advances ⟨pos, '"' :: cs⟩ := ⟨⟨_, covers.rest.symm⟩, covers.limit⟩
    have ahead := ((scanPiece_advances start c.pos c.rest).trans reach).trans (.step pos '"' cs)
    obtain ⟨ending, gap, further, stops, between, behind, found, below⟩ := ih (first.trans ahead.le)
    rw [result] at stops behind found below
    refine ⟨ending, gap, ahead.trans further, stops, between, behind, ?_, ?_⟩
    · rw [silent, List.append_nil, List.filter_append, (inner_piece c.pos c.rest first).filter,
        List.nil_append, found]
    · rw [silent, List.append_nil]
      exact fun n mem => (List.mem_append.mp mem).elim (fun mem =>
        (inner_piece c.pos c.rest first n mem).2) fun mem => ahead.limit ▸ below n mem
  | case2 c piece after _ =>
    obtain ⟨gap, between, covers, notes⟩ := skipBlanks_covers lineComments piece.next
    have ahead := scanPiece_advances start c.pos c.rest
    refine ⟨piece.next, gap, ahead, rfl, between, covers, ?_, fun n mem => ?_⟩
    · rw [List.filter_append, (inner_piece c.pos c.rest first).filter, List.nil_append, notes,
        filter_findings]
    · rcases List.mem_append.mp mem with mem | mem
      · exact (inner_piece c.pos c.rest first n mem).2
      · rw [notes] at mem
        exact ahead.limit ▸ covers.below n mem

theorem takes_text (pos : Nat) (a : Char) (cs : List Char) :
    ∃ ending gap, Takes lineComments ⟨pos, a :: cs⟩ (scanText lineComments pos cs) ending gap := by
  have step := Advances.step pos a cs
  obtain ⟨ending, gap, ahead, stops, between, behind, found, below⟩ :=
    scanPieces_spec lineComments ⟨pos + 1, cs⟩ (Nat.le_succ pos)
  exact ⟨ending, gap, rfl, rfl, stops, step.trans ahead, ahead.le, between, behind, found,
    fun n mem => step.limit ▸ below n mem⟩

/-! ## The next lexeme -/

/-- A punctuator that starts a source is in front of it. -/
theorem punctuator?_some {cs spelling : List Char} {kind : TokenKind}
    (found : punctuator? cs = some (spelling, kind)) :
    (spelling, kind) ∈ punctuators ∧ cs = spelling ++ cs.drop spelling.length := by
  rw [punctuator?] at found
  have starts := List.find?_some found
  obtain ⟨rest, behind⟩ := Option.isSome_iff_exists.mp starts
  have whole : cs = spelling ++ rest := Text.afterStart?_eq_some_iff.mp behind
  refine ⟨List.mem_of_find?_eq_some found, ?_⟩
  rw [whole, List.drop_left]

theorem punctuator?_none {cs : List Char} :
    punctuator? cs = none ↔ ∀ entry ∈ punctuators, ∀ rest, cs ≠ entry.1 ++ rest := by
  rw [punctuator?, List.find?_eq_none]
  refine forall₂_congr fun entry _ => ?_
  rw [Option.isSome_iff_exists, not_exists]
  exact forall_congr' fun rest => not_congr Text.afterStart?_eq_some_iff

/-- A character that starts no lexeme where it is starts none anywhere. -/
theorem startsLexeme_of_scanAt {features : Features} {pos : Nat} {a : Char} {cs : List Char}
    (missing : scanAt features pos a cs = none) : startsLexeme a = false := by
  unfold scanAt at missing
  split at missing
  next => cases missing
  next word =>
    split at missing
    next => cases missing
    next number =>
      split at missing
      next => cases missing
      next quote =>
        split at missing
        next => cases missing
        next mark =>
          have apart := punctuator?_none.1 (Option.map_eq_none_iff.mp missing)
          have single : punctuator? [a] = none := by
            refine punctuator?_none.2 fun entry mem rest whole => apart entry mem (rest ++ cs) ?_
            rw [← List.append_assoc, ← whole]
            rfl
          simp only [startsNumber, Bool.or_eq_true, not_or] at number
          simp [startsLexeme, word, number.1, quote, mark, single]

theorem scanAt_takes {features : Features} {pos : Nat} {a : Char} {cs : List Char} {scan : Scan}
    (found : scanAt features pos a cs = some scan) :
    ∃ ending gap, Takes features.lineComments ⟨pos, a :: cs⟩ scan ending gap := by
  unfold scanAt at found
  split at found
  next letter =>
    cases found
    exact ⟨_, _, takes_word pos a cs letter⟩
  next =>
    split at found
    next number =>
      cases found
      exact ⟨_, _, takes_number features.radixPrefixes pos a cs number⟩
    next =>
      split at found
      next =>
        cases found
        exact takes_text pos a cs
      next =>
        split at found
        next =>
          cases found
          exact ⟨_, _, takes_character pos a cs⟩
        next =>
          obtain ⟨⟨spelling, kind⟩, entry, rfl⟩ := Option.map_eq_some_iff.mp found
          obtain ⟨mem, whole⟩ := punctuator?_some entry
          have listed : ∀ entry ∈ punctuators,
              (entry.2 == .endOfInput || entry.2 == .identifier) = false := by
            decide
          refine ⟨_, _, .plain (listed _ mem) rfl rfl ⟨⟨spelling, whole.symm⟩,
            ?_⟩ (Nat.lt_add_of_pos_right (punctuator?_pos entry)) (inner_nil _)⟩
          have length := congrArg List.length whole
          rw [List.length_append] at length
          simp only [limit]
          omega

/-- What the next lexeme covers, with what was passed over before and behind it. -/
inductive Cuts (lineComments : Bool) (c : Cursor) (scan : Scan) : List Segment → Prop
  | finish {gap : List Segment} (lexeme : scan.lexeme = .endOfInput)
      (range : scan.start = scan.next.pos ∧ scan.stop = scan.next.pos) (done : scan.next.rest = [])
      (between : Gap gap) (covers : c.Covers lineComments scan.next gap)
      (notes : scan.notes.filter isFinding = findings c.pos gap)
      (below : ∀ n ∈ scan.notes, n.Below c.limit) : Cuts lineComments c scan gap
  | lexeme {before behind : List Segment} {chars : List Char}
      (lexeme : scan.lexeme.isSpecial = false) (start : scan.start = c.pos + (source before).length)
      (stop : scan.stop = scan.start + chars.length) (ahead : Gap before) (after : Gap behind)
      (covers : c.Covers lineComments scan.next (before ++ .lexeme chars :: behind))
      (notes : scan.notes.filter isFinding = findings c.pos (before ++ .lexeme chars :: behind))
      (below : ∀ n ∈ scan.notes, n.Below c.limit) :
      Cuts lineComments c scan (before ++ .lexeme chars :: behind)

/-- What was passed over in front of a scan belongs to it. -/
theorem Cuts.before {lineComments : Bool} {c d : Cursor} {scan : Scan}
    {gap segments : List Segment} {notes : List Note} (cuts : Cuts lineComments d scan segments)
    (between : Gap gap) (covers : c.Covers lineComments d gap)
    (found : notes.filter isFinding = findings c.pos gap) (low : ∀ n ∈ notes, n.Below c.limit) :
    Cuts lineComments c { scan with notes := notes ++ scan.notes } (gap ++ segments) := by
  have all (below : ∀ n ∈ scan.notes, n.Below d.limit) :
    ∀ n ∈ notes ++ scan.notes, n.Below c.limit :=
    fun n mem => (List.mem_append.mp mem).elim (low n) (covers.limit ▸ below n)
  have both {more : List Segment} (later : scan.notes.filter isFinding = findings d.pos more) :
      (notes ++ scan.notes).filter isFinding = findings c.pos (gap ++ more) := by
    rw [List.filter_append, found, later, findings_append, covers.pos]
  cases cuts with
  | finish lexeme range done behind rest later below =>
    exact .finish lexeme range done (fun s mem => (List.mem_append.mp mem).elim (between s)
      (behind s)) (covers.append rest) (both later) (all below)
  | @lexeme before behind chars lexeme start stop ahead after rest later below =>
    have whole := covers.append rest
    have notes := both later
    rw [← List.append_assoc] at whole notes ⊢
    refine .lexeme lexeme ?_ stop (fun s mem =>
      (List.mem_append.mp mem).elim (between s) (ahead s)) after whole notes (all below)
    rw [source_append, List.length_append, ← Nat.add_assoc, ← covers.pos]
    exact start

theorem Takes.cuts {scan : Scan} {ending : Cursor} {gap : List Segment}
    (takes : Takes lineComments c scan ending gap) :
    Cuts lineComments c scan ([] ++ .lexeme (c.rest.take (ending.pos - c.pos)) :: gap) := by
  obtain ⟨lexeme, start, stop, ahead, more, between, behind, notes, below⟩ := takes
  have here := Covers.lexeme lineComments ahead more
  refine .lexeme lexeme start ?_ (by simp [Gap]) between (here.append behind) ?_ below
  · rw [stop, here.pos, start]
    simp [chars]
  · rw [notes, here.pos]
    simp [findings, chars]

theorem next_cuts (features : Features) (c : Cursor) :
    ∃ segments, Cuts features.lineComments c (next features c) segments := by
  fun_induction next features c with
  | case1 c after pos following =>
    obtain ⟨gap, between, covers, notes⟩ := skipBlanks_covers features.lineComments c
    have last : (skipBlanks features.lineComments c).1 = ⟨pos, []⟩ := following
    rw [last] at covers
    have found := (congrArg (List.filter isFinding) notes).trans (filter_findings _ _)
    exact ⟨gap, .finish rfl ⟨rfl, rfl⟩ rfl between covers found fun n mem =>
      covers.below n (notes ▸ mem)⟩
  | case2 c after pos a cs following scan found =>
    obtain ⟨gap, between, covers, notes⟩ := skipBlanks_covers features.lineComments c
    have here : (skipBlanks features.lineComments c).1 = ⟨pos, a :: cs⟩ := following
    rw [here] at covers
    obtain ⟨ending, behind, takes⟩ := scanAt_takes found
    have low := covers.below
    rw [← notes] at low
    exact ⟨_, takes.cuts.before between covers
      ((congrArg (List.filter isFinding) notes).trans (filter_findings _ _)) low⟩
  | case3 c after pos a cs following missing scan ih =>
    obtain ⟨gap, between, covers, notes⟩ := skipBlanks_covers features.lineComments c
    have here : (skipBlanks features.lineComments c).1 = ⟨pos, a :: cs⟩ := following
    have layout := (skipBlanks_stops (congrArg Cursor.rest here)).1
    rw [here] at covers
    obtain ⟨segments, cuts⟩ := ih
    have stray : Covers features.lineComments ⟨pos, a :: cs⟩ ⟨pos + 1, cs⟩ [.stray a] :=
      .single rfl rfl ⟨layout, startsLexeme_of_scanAt missing⟩
    have noted : after.2 ++ [errorNote pos (pos + 1) (.lettered .badCharacter a.toNat)] =
      findings c.pos (gap ++ [.stray a]) := by
      rw [findings_append, ← covers.pos, ← notes]
      rfl
    have both := covers.append stray
    have whole := cuts.before (by simpa [Gap, or_imp, forall_and, isLexeme] using between) both
      ((congrArg (List.filter isFinding) noted).trans (filter_findings _ _)) (noted ▸ both.below)
    rw [List.append_assoc, List.singleton_append] at whole
    exact ⟨_, whole⟩

/-- The range of one lexeme between gaps. -/
theorem ranges_lexeme {before behind : List Segment} {chars : List Char} (ahead : Gap before)
    (after : Gap behind) (pos : Nat) : ranges pos (before ++ .lexeme chars :: behind) =
    [(pos + (source before).length, pos + (source before).length + chars.length)] := by
  rw [ranges_append, ahead.ranges_eq_nil, List.nil_append, Segment.ranges, after.ranges_eq_nil]
  rfl

/-! ## All lexemes -/

/-- A source is a row of segments. Its lexemes cover their segments in order, the end of the input
comes last, and what is noted about the segments between lexemes is noted once and where they
are. -/
theorem scanAll_segments (features : Features) (c : Cursor) :
    ∃ segments taken last, scanAll features c = taken ++ [last] ∧
    source segments = c.rest ∧ AllFit features.lineComments segments [] ∧
    (taken.map fun scan => (scan.start, scan.stop)) = ranges c.pos segments ∧
    (∀ scan ∈ taken, scan.lexeme.isSpecial = false) ∧
    last.lexeme = .endOfInput ∧ last.start = c.pos + c.rest.length ∧
    last.stop = c.pos + c.rest.length ∧ last.next = ⟨c.pos + c.rest.length, []⟩ ∧
    ((taken ++ [last]).flatMap Scan.notes).filter isFinding = findings c.pos segments ∧
    ∀ n ∈ (taken ++ [last]).flatMap Scan.notes, n.Below c.limit := by
  -- by induction on the lexemes that are cut off: each comes with the segments up to its end
  fun_induction scanAll features c with
  | case1 c scan isLast =>
    obtain ⟨segments, cuts⟩ := next_cuts features c
    cases cuts with
    | finish lexeme range done between covers notes below =>
      have whole := covers.rest
      rw [done, List.append_nil] at whole
      have ends := covers.pos
      rw [← whole] at ends
      refine ⟨segments, [], scan, rfl, whole.symm, done ▸ covers.fit,
        (between.ranges_eq_nil _).symm, fun _ mem => (List.not_mem_nil mem).elim, lexeme,
        range.1.trans ends, range.2.trans ends, ?_, by simpa using notes,
        by simpa using below⟩
      rw [← ends, ← done]
    | lexeme other => exact absurd ((isEnd_of_isSpecial other).symm.trans isLast) Bool.false_ne_true
  | case2 c scan more ih =>
    obtain ⟨segments, cuts⟩ := next_cuts features c
    obtain ⟨later, taken, last, all, whole, fit, ranges, others, isLast, start, stop, next,
        notes, low⟩ :=
      ih
    cases cuts with
    | finish lexeme => exact absurd (congrArg isEnd lexeme) more
    | @lexeme before behind chars other first final ahead after covers found below =>
      have limit : scan.next.pos + scan.next.rest.length = c.pos + c.rest.length := covers.limit
      rw [limit] at start stop next
      set here := before ++ .lexeme chars :: behind
      have range : Segment.ranges c.pos here = _ := ranges_lexeme ahead after c.pos
      rw [← first, ← final] at range
      refine ⟨here ++ later, scan :: taken, last, congrArg (scan :: ·) all, ?_, ?_, ?_,
        List.forall_mem_cons.mpr ⟨other, others⟩, isLast, start, stop, next, ?_, ?_⟩
      · rw [source_append, whole, ← covers.rest]
      · exact allFit_append.mpr ⟨by rw [whole, List.append_nil]; exact covers.fit, fit⟩
      · rw [ranges_append, ← covers.pos, range, List.map_cons, ranges]
        rfl
      · rw [findings_append, ← covers.pos, ← notes, ← found, List.cons_append, List.flatMap_cons,
          List.filter_append]
      · rw [List.cons_append, List.flatMap_cons]
        exact fun n mem => (List.mem_append.mp mem).elim (below n) fun mem =>
          covers.limit ▸ low n mem

end Lexeme

end BilingualC
