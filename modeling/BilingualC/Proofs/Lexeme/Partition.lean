import Mathlib
import BilingualC.Proofs.Lexeme.Segments
import BilingualC.Proofs.Total.Steps

/-!
# The tokens of a source

Taking in the lexemes of a source makes one token of each and reports what is noted about them. With
the segments of the source this says where its tokens are: they cover the lexemes in order, the end
of the input stands behind all of them, and what lies between them is blank, a comment or reported.

Main result: `Session.tokenize_segments`, for any source that fits in memory.
-/

namespace BilingualC

open Lexeme Segment

/-! ## Reports -/

namespace Note

/-- The report of a note, if it is not switched off. -/
def report? (options : Option Options) (n : Note) : Option Report :=
  match n.warning with
  | none => some ⟨.error, n.loc, n.diagnostic⟩
  | some w =>
    if (options.map (·.warnings.get w)).getD true
      then some ⟨.warning, n.loc, n.diagnostic⟩ else none

theorem Below.near {limit : Nat} {n : Note} (below : n.Below limit)
    (small : (limit : Int) ≤ 65536 * largestBlock) : n.loc.Near :=
  ⟨⟨below.1.1, below.1.2.trans small⟩, below.2.1, below.2.2.trans small⟩

end Note

/-- Says whether a report is about a part of a source between lexemes. -/
def Report.isFinding (r : Report) : Bool :=
  r.diagnostic.code == .badCharacter || r.diagnostic.code == .unterminatedComment

/-- What is found between lexemes is reported in any case. -/
theorem filter_filterMap_report (options : Option Options) {notes : List Note}
    (errors : ∀ n ∈ notes.filter Segment.isFinding, n.warning = none) :
    (notes.filterMap (·.report? options)).filter Report.isFinding =
      (notes.filter Segment.isFinding).map fun n => ⟨.error, n.loc, n.diagnostic⟩ := by
  induction notes with
  | nil => rfl
  | cons n rest ih =>
    have same (r : Report) (made : n.report? options = some r) :
      r.isFinding = Segment.isFinding n := by
      unfold Note.report? at made
      split at made
      · cases made
        rfl
      · split at made
        · cases made
          rfl
        · cases made
    by_cases finding : Segment.isFinding n = true
    · rw [List.filter_cons_of_pos finding] at errors ⊢
      obtain ⟨error, others⟩ := List.forall_mem_cons.mp errors
      have made : n.report? options = some ⟨.error, n.loc, n.diagnostic⟩ := by
        unfold Note.report?
        rw [error]
      rw [List.filterMap_cons_some made, List.filter_cons_of_pos ((same _ made).trans finding),
        ih others, List.map_cons]
    · rw [List.filter_cons_of_neg finding] at errors ⊢
      cases made : n.report? options with
      | none => rw [List.filterMap_cons_none made, ih errors]
      | some r =>
        rw [List.filterMap_cons_some made,
          List.filter_cons_of_neg (by rwa [same r made]), ih errors]

theorem warning_of_findings {pos : Nat} {segments : List Segment} :
    ∀ n ∈ findings pos segments, n.warning = none := by
  induction segments generalizing pos with
  | nil => exact fun _ mem => (List.not_mem_nil mem).elim
  | cons s more ih =>
    cases s with
    | lexeme | blank | comment => exact ih
    | openComment | stray => exact List.forall_mem_cons.mpr ⟨rfl, ih⟩

namespace Session

variable {s : Session}

/-- Takes in one note. -/
def takeNote (s : Session) (n : Note) : Guarded Session :=
  match n.warning with
  | none => s.error n.loc n.diagnostic
  | some w => s.warn w n.loc n.diagnostic

theorem takeNotes_cons (s : Session) (n : Note) (rest : List Note) :
    s.takeNotes (n :: rest) = s.takeNote n >>= fun t => t.takeNotes rest := by
  unfold takeNote
  cases warning : n.warning <;> simp only [takeNotes, warning]

/-- A note adds its report, if it has one. -/
theorem takeNote_ok {n : Note} (roomy : s.journal.Roomy) (near : n.loc.Near) :
    ∃ j, s.takeNote n = .ok { s with journal := j } ∧
    s.journal.Adds j (n.report? s.journal.options).toList := by
  have added (severity : Severity) (tag : String) :
      ∃ j, s.journal.add ⟨severity, n.loc, n.diagnostic⟩ tag = .ok j ∧
      s.journal.Adds j [⟨severity, n.loc, n.diagnostic⟩] :=
    (Journal.add_ends ⟨severity, n.loc, n.diagnostic⟩ tag (.inr ⟨roomy, near⟩)).answer
  unfold takeNote Note.report?
  cases warning : n.warning with
  | none =>
    obtain ⟨j, made, adds⟩ := added .error ""
    exact ⟨j, by simp [Session.error, Journal.error, made], adds⟩
  | some w =>
    cases options : s.journal.options with
    | none =>
      obtain ⟨j, made, adds⟩ := added .warning ""
      exact ⟨j, by simp [Session.warn, Journal.warn, options, made], adds⟩
    | some o =>
      cases on : o.warnings.get w with
      | true =>
        obtain ⟨j, made, adds⟩ := added .warning (" [-W" ++ w.name ++ "]")
        exact ⟨j, by simp [Session.warn, Journal.warn, options, on, made], by simpa [on] using adds⟩
      | false =>
        exact ⟨s.journal, by simp [Session.warn, Journal.warn, options, on]; rfl,
          by simpa [on] using .refl _⟩

theorem takeNotes_ok {notes : List Note} (roomy : s.journal.Roomy)
    (near : ∀ n ∈ notes, n.loc.Near) : ∃ j, s.takeNotes notes = .ok { s with journal := j } ∧
    s.journal.Adds j (notes.filterMap (·.report? s.journal.options)) := by
  induction notes generalizing s with
  | nil => exact ⟨s.journal, rfl, .refl _⟩
  | cons n rest ih =>
    obtain ⟨here, others⟩ := List.forall_mem_cons.mp near
    obtain ⟨j, taken, adds⟩ := takeNote_ok roomy here
    obtain ⟨k, later, more⟩ := ih (s := { s with journal := j }) (adds.roomy roomy) others
    refine ⟨k, by rw [takeNotes_cons, taken]; exact later, ?_⟩
    have both := adds.trans more
    rw [adds.options] at both
    rw [List.filterMap_cons]
    cases made : n.report? s.journal.options <;> simpa [made] using both

/-! ## Tokens -/

theorem loc_lexemeToken (s : Session) (features : Features) (loc : Location) (lexeme : Lexeme) :
    (s.lexemeToken features loc lexeme).2.loc = loc := by
  unfold lexemeToken
  split
  case h_3 text =>
    unfold wordToken
    split <;> rfl
  all_goals rfl

theorem journal_lexemeToken (s : Session) (features : Features) (loc : Location) (lexeme : Lexeme) :
    (s.lexemeToken features loc lexeme).1.journal = s.journal := by
  unfold lexemeToken
  split
  case h_3 text =>
    unfold wordToken
    split <;> rfl
  all_goals rfl

/-- What a word stands for is the kind of a keyword. -/
theorem keyword_of_find? {english russian : Bool} {text : String} {kind : TokenKind}
    (found : Keyword.find? english russian text = some kind) :
    ∃ k ∈ Keyword.all, k.kind = kind := by
  have inList {admitted : Bool} {p : Keyword → Bool} {k : Keyword}
      (found : (if admitted then Keyword.all.find? p else none) = some k) : k ∈ Keyword.all := by
    split at found
    · exact List.mem_of_find?_eq_some found
    · cases found
  obtain ⟨k, word, rfl⟩ := Option.map_eq_some_iff.mp found
  cases first : (if english = true then Keyword.all.find? (fun k => Keyword.spells k.english text)
    else none) with
  | none =>
    rw [first] at word
    exact ⟨k, inList word, rfl⟩
  | some k' =>
    rw [first] at word
    exact ⟨k, inList (first.trans word), rfl⟩

/-- No keyword stands for the end of the input or for an identifier. -/
theorem find?_ne_special {english russian : Bool} {text : String} {kind : TokenKind}
    (found : Keyword.find? english russian text = some kind) : kind ≠ .endOfInput ∧
    kind ≠ .identifier := by
  have listed : ∀ k ∈ Keyword.all, k.kind ≠ .endOfInput ∧ k.kind ≠ .identifier := by decide
  obtain ⟨k, mem, rfl⟩ := keyword_of_find? found
  exact listed k mem

theorem kind_lexemeToken (s : Session) (features : Features) (loc : Location) {lexeme : Lexeme}
    (other : lexeme.isSpecial = false) :
    (s.lexemeToken features loc lexeme).2.kind ≠ .endOfInput := by
  unfold lexemeToken
  split
  case h_1 => cases other
  case h_2 kind =>
    rintro rfl
    cases other
  case h_3 text =>
    unfold wordToken
    split
    next kind found => exact (find?_ne_special found).1
    next => exact nofun
  all_goals exact nofun

/-- A token is made of a lexeme, whatever was stored before. -/
def IsToken (features : Features) (scan : Scan) (token : Token) : Prop :=
  ∃ s : Session, (s.lexemeToken features ⟨scan.start, scan.stop⟩ scan.lexeme).2 = token

/-- Taking in a lexeme and then the others. -/
theorem takeScans_cons {features : Features} {scan : Scan} {rest : List Scan}
    {t u : Session} {tokens : List Token} (noted : s.takeNotes scan.notes = .ok u)
    (taken : (u.lexemeToken features ⟨scan.start, scan.stop⟩ scan.lexeme).1.takeScans features rest
      = .ok (t, tokens)) : s.takeScans features (scan :: rest) =
    .ok (t, (u.lexemeToken features ⟨scan.start, scan.stop⟩ scan.lexeme).2 :: tokens) := by
  have one : s.takeScan features scan =
    .ok (u.lexemeToken features ⟨scan.start, scan.stop⟩ scan.lexeme) := by
    rw [takeScan, noted]
    rfl
  rw [takeScans, one]
  generalize u.lexemeToken features ⟨scan.start, scan.stop⟩ scan.lexeme = made at taken ⊢
  change (made.1.takeScans features rest >>= fun out => pure (out.1, made.2 :: out.2)) = _
  rw [taken]
  rfl

theorem takeScans_ok (features : Features) {scans : List Scan} (roomy : s.journal.Roomy)
    (near : ∀ n ∈ scans.flatMap Scan.notes, n.loc.Near) :
    ∃ t tokens, s.takeScans features scans = .ok (t, tokens) ∧
    List.Forall₂ (IsToken features) scans tokens ∧
    s.journal.Adds t.journal ((scans.flatMap Scan.notes).filterMap (·.report? s.journal.options)) :=
    by
  induction scans generalizing s with
  | nil => exact ⟨s, [], rfl, .nil, .refl _⟩
  | cons scan rest ih =>
    rw [List.flatMap_cons] at near
    obtain ⟨j, noted, adds⟩ := takeNotes_ok roomy fun n mem => near n (List.mem_append_left _ mem)
    set u : Session := { s with journal := j } with noteds
    set made := u.lexemeToken features ⟨scan.start, scan.stop⟩ scan.lexeme with token
    have journal : made.1.journal = j := journal_lexemeToken ..
    obtain ⟨t, tokens, taken, tokensOf, more⟩ := ih (s := made.1) (journal ▸ adds.roomy roomy)
      fun n mem => near n (List.mem_append_right _ mem)
    rw [journal] at more
    have both := adds.trans more
    rw [adds.options] at both
    exact ⟨t, made.2 :: tokens, takeScans_cons noted taken, .cons ⟨u, rfl⟩ tokensOf,
      by rwa [List.flatMap_cons, List.filterMap_append]⟩

theorem forall₂_concat {α β : Type} {R : α → β → Prop} {as : List α}
    {a : α} {bs : List β} (all : List.Forall₂ R (as ++ [a]) bs) :
    ∃ cs c, bs = cs ++ [c] ∧ List.Forall₂ R as cs ∧ R a c := by
  have one := List.forall₂_take_append bs as [a] all.flip
  have two := List.forall₂_drop_append bs as [a] all.flip
  obtain ⟨c, none, last, empty, same⟩ := List.forall₂_cons_right_iff.mp two
  obtain rfl := List.forall₂_nil_right_iff.mp empty
  exact ⟨bs.take as.length, c, by rw [← same, List.take_append_drop], one.flip, last⟩

section Tokens

variable {features : Features} {scans : List Scan} {tokens : List Token}

theorem map_loc_tokens (made : List.Forall₂ (IsToken features) scans tokens) :
    tokens.map (·.loc) = scans.map fun scan => ⟨scan.start, scan.stop⟩ := by
  induction made with
  | nil => rfl
  | cons token _ ih =>
    obtain ⟨s, rfl⟩ := token
    rw [List.map_cons, List.map_cons, ih, loc_lexemeToken]

theorem kind_tokens (made : List.Forall₂ (IsToken features) scans tokens)
    (others : ∀ scan ∈ scans, scan.lexeme.isSpecial = false) :
    ∀ token ∈ tokens, token.kind ≠ .endOfInput := by
  induction made with
  | nil => exact fun _ mem => (List.not_mem_nil mem).elim
  | cons token _ ih =>
    obtain ⟨s, rfl⟩ := token
    obtain ⟨first, rest⟩ := List.forall_mem_cons.mp others
    exact List.forall_mem_cons.mpr ⟨kind_lexemeToken s features _ first, ih rest⟩

/-- Tokens whose places are the ranges of lexemes stand inside the source, one after the other. -/
theorem tokens_ordered {segments : List Segment} {lineComments : Bool} {base : Nat}
    (fit : AllFit lineComments segments [])
    (places : tokens.map (·.loc) = (ranges base segments).map fun range => ⟨range.1, range.2⟩) :
    (∀ token ∈ tokens, (base : Int) ≤ token.loc.start ∧ token.loc.start < token.loc.stop ∧
      token.loc.stop ≤ base + (source segments).length) ∧
      tokens.Pairwise fun token later => token.loc.stop ≤ later.loc.start := by
  obtain ⟨inside, ordered⟩ := ranges_ordered fit base
  constructor
  · intro token mem
    have place := List.mem_map_of_mem (f := (·.loc)) mem
    rw [places] at place
    obtain ⟨range, mem, same⟩ := List.mem_map.mp place
    have := inside range mem
    rw [← same]
    simp only
    omega
  · have places' : (tokens.map (·.loc)).Pairwise fun loc later => loc.stop ≤ later.start := by
      rw [places, List.pairwise_map]
      exact ordered.imp fun before => Int.ofNat_le.mpr before
    exact List.pairwise_map.mp places'

end Tokens

/-- The tokens of a source cover its lexemes in order, and the end of the input stands behind all of
them. The rest of the source is blank, a comment, or a character that is reported where it is; a
comment that is never closed is the last part of the source, and it is reported once. After the end
of the input there is nothing but another end of the input, however often the next lexeme is asked
for: the cursor stays where it is. -/
theorem tokenize_segments (s : Session) (features : Features) (name : String) (content : List Char)
    (roomy : (s.journal.addFile name content.toArray).Roomy)
    (small : (s.journal.nextBase : Int) + content.length ≤ 65536 * largestBlock) :
    let base := s.journal.nextBase
    let stop := base + content.length
    ∃ (t : Session) (tokens : List Token) (ending : Token) (segments : List Segment),
      s.tokenize features name content = .ok (t, tokens ++ [ending]) ∧ ending.kind = .endOfInput ∧
      ending.loc = ⟨stop, stop⟩ ∧ (∀ token ∈ tokens, token.kind ≠ .endOfInput) ∧
      source segments = content ∧ AllFit features.lineComments segments [] ∧
      tokens.map (·.loc) = (ranges base segments).map (fun range => ⟨range.1, range.2⟩) ∧
      (∀ token ∈ tokens, (base : Int) ≤ token.loc.start ∧ token.loc.start < token.loc.stop ∧
      token.loc.stop ≤ base + content.length) ∧
      tokens.Pairwise (fun token later => token.loc.stop ≤ later.loc.start) ∧
      (∃ reports, (s.journal.addFile name content.toArray).Adds t.journal reports ∧ reports.filter
      Report.isFinding = (findings base segments).map fun n => ⟨.error, n.loc, n.diagnostic⟩) ∧
      (scanAll features ⟨base, content⟩).getLast?.map Scan.next = some ⟨stop, []⟩ ∧
      t.takeScan features (next features ⟨stop, []⟩) = .ok (t, ending) ∧
      (next features ⟨stop, []⟩).next = ⟨stop, []⟩ := by
  intro base stop
  obtain ⟨segments, taken, last, all, whole, fit, covered, others, isLast, start, final, rest,
    found, below⟩ :=
    scanAll_segments features ⟨base, content⟩
  obtain ⟨t, made, read, tokensOf, adds⟩ :=
    takeScans_ok features (s := { s with journal := s.journal.addFile name content.toArray }) roomy
      fun n mem => (below n (all ▸ mem)).near small
  rw [all] at tokensOf adds
  obtain ⟨tokens, ending, rfl, first, ⟨u, rfl⟩⟩ := forall₂_concat tokensOf
  have places : tokens.map (·.loc) = (ranges base segments).map fun range =>
    ⟨range.1, range.2⟩ := by
    rw [map_loc_tokens first, ← covered, List.map_map]
    rfl
  obtain ⟨inside, ordered⟩ := tokens_ordered fit places
  rw [whole] at inside
  rw [start, final, isLast] at read
  have past : next features ⟨stop, []⟩ = ⟨.endOfInput, stop, stop, [], ⟨stop, []⟩⟩ := by
    rw [next, skipBlanks]
  refine ⟨t, tokens, _, segments, read, rfl, rfl, kind_tokens first others, whole, fit, places,
    inside, ordered, ⟨_, adds, ?_⟩, ?_, ?_, ?_⟩
  · rw [filter_filterMap_report _ (found ▸ warning_of_findings), found]
  · rw [all, List.getLast?_append]
    simp [rest]
    rfl
  · rw [past]
    rfl
  · rw [past]

/-- A word, a strange character and a comment that is never closed. -/
theorem tokenize_segments_open :
    let s := Session.new 0 (.new none false)
    let content := ['x', ' ', '#', ' ', '/', '*']
    (s.journal.addFile "a" content.toArray).Roomy ∧
      (s.journal.nextBase : Int) + content.length ≤ 65536 * largestBlock ∧
      ∃ t tokens ending segments, s.tokenize .initial "a" content = .ok (t, tokens ++ [ending]) ∧
      ending.loc = ⟨6, 6⟩ ∧ source segments = content ∧ AllFit true segments [] := by
  intro s content
  have roomy : (s.journal.addFile "a" content.toArray).Roomy := by
    refine .inr fun file mem => ?_
    obtain rfl : file = ⟨"a", content.toArray, 0⟩ := by
      simpa [s, Session.new, Journal.new, Journal.addFile, Journal.nextBase] using mem
    decide
  have small : (s.journal.nextBase : Int) + content.length ≤ 65536 * largestBlock := by decide
  obtain ⟨t, tokens, ending, segments, read, -, loc, -, whole, fit, -⟩ :=
    tokenize_segments s .initial "a" content roomy small
  exact ⟨roomy, small, t, tokens, ending, segments, read, loc, whole, fit⟩

end Session

end BilingualC
