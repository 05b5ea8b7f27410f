import Mathlib
import BilingualC.Proofs.Lexeme.Partition
import BilingualC.Proofs.Reading.Whole

/-!
# Compiling any sources

Scanning sources that fit in memory gives tokens whose locations rise and whose names are stored
(`Compilation.tokenizeEach_scans`). So where reading comes to an end a compilation has reported an
error, or it gives an image (`Compilation.run_decided`).
-/

namespace BilingualC

open Guarded Rose

/-! ## Names -/

namespace Session

variable {s t u : Session} {features : Features}

/-- A spelling that is stored stays stored. -/
theorem standing_has (k : Int) : Standing fun s => s.spellings.has k = true where
  journal _ _ known := known
  intern s text known := by
    change (s.spellings.intern text).1.has k = true
    obtain ⟨low, high⟩ := Spellings.has_iff.mp known
    obtain same | ⟨chains, before, grown⟩ := s.spellings.intern_cases text
    · rw [same]
      exact known
    · refine Spellings.has_iff.mpr ⟨low, ?_⟩
      rw [grown, Array.size_push]
      omega
  string _ _ known := known

/-- The spelling of an identifier is stored. -/
theorem lexemeToken_named (linked : s.Linked) (loc : Location)
    {lexeme : Lexeme} (plain : lexeme ≠ .punctuator .identifier)
    (name : (s.lexemeToken features loc lexeme).2.kind = .identifier) :
    (s.lexemeToken features loc lexeme).1.spellings.has
    (s.lexemeToken features loc lexeme).2.spelling = true := by
  cases lexeme with
  | word text =>
    simp only [lexemeToken, wordToken] at name ⊢
    cases found : Keyword.find? features.englishKeywords features.russianKeywords text with
    | some kind =>
      rw [found] at name
      exact absurd name (find?_ne_special found).2
    | none => exact linked.has_intern text
  | punctuator kind => exact absurd (congrArg Lexeme.punctuator name) plain
  | character value => cases value <;> cases name
  | endOfInput | integer | floating | text => cases name

theorem takeScans_named (opens : s.Opens) {scans : List Scan} {tokens : List Token}
    (plain : ∀ scan ∈ scans, scan.lexeme ≠ .punctuator .identifier)
    (done : s.takeScans features scans = .ok (t, tokens)) :
    ∀ tok ∈ tokens, tok.kind = .identifier → t.spellings.has tok.spelling = true := by
  induction scans generalizing s t tokens with
  | nil =>
    cases done
    exact fun _ mem => (List.not_mem_nil mem).elim
  | cons scan rest ih =>
    obtain ⟨first, others⟩ := List.forall_mem_cons.mp plain
    obtain ⟨⟨u, token⟩, taken, done⟩ := Guarded.bind_eq_ok.mp done
    obtain ⟨⟨v, more⟩, later, same⟩ := Guarded.bind_eq_ok.mp done
    cases same
    obtain ⟨noted, notes, same⟩ := Guarded.bind_eq_ok.mp taken
    have before := standing_opens.takeNotes opens notes
    have scanned := standing_opens.lexemeToken before features ⟨scan.start, scan.stop⟩ scan.lexeme
    have named := @lexemeToken_named _ features before.linked ⟨scan.start, scan.stop⟩ _ first
    rw [Except.ok.inj same] at scanned named
    exact List.forall_mem_cons.mpr ⟨fun name => (standing_has _).takeScans (named name) later,
      ih scanned others later⟩

/-! ## Tokens of sources -/

/-- What scanning a number of characters does: it gives tokens without an end of the input. -/
structure Scans (s t : Session) (length : Nat) (tokens : List Token) : Prop where
  opens : t.Opens
  roomy : t.journal.Roomy
  base : t.journal.nextBase = s.journal.nextBase + length
  spelled : ∀ tok ∈ tokens, tok.kind = .identifier → t.spellings.has tok.spelling = true
  more : ∀ tok ∈ tokens, tok.kind ≠ .endOfInput
  inside : ∀ tok ∈ tokens, (s.journal.nextBase : Int) ≤ tok.loc.start ∧
    tok.loc.start < tok.loc.stop ∧ tok.loc.stop ≤ t.journal.nextBase
  apart : tokens.Pairwise fun tok later => tok.loc.stop ≤ later.loc.start

namespace Scans

variable {n : Nat} {tokens : List Token}

theorem rising (scans : s.Scans t n tokens) : Rising (tokens.map Token.loc) where
  filled loc mem := by
    obtain ⟨tok, inside, rfl⟩ := List.mem_map.mp mem
    exact (scans.inside tok inside).2.1
  apart := List.pairwise_map.mpr scans.apart

theorem refl (opens : s.Opens) (roomy : s.journal.Roomy) : s.Scans s 0 [] :=
  ⟨opens, roomy, rfl, by simp, by simp, by simp, .nil⟩

/-- There are not more tokens than characters. -/
theorem length_le (scans : s.Scans t n tokens) : tokens.length ≤ n := by
  have base := scans.base
  have inside := scans.inside
  have apart := scans.apart
  suffices bound : ∀ low : Int, low ≤ t.journal.nextBase → (∀ tok ∈ tokens, low ≤ tok.loc.start ∧
      tok.loc.start < tok.loc.stop ∧ tok.loc.stop ≤ t.journal.nextBase) →
      (tokens.length : Int) ≤ t.journal.nextBase - low by
    have := bound s.journal.nextBase (by omega) inside
    omega
  clear scans inside
  induction apart with
  | nil => exact fun low le _ => by simpa using le
  | @cons tok rest before _ ih =>
    intro low le inside
    obtain ⟨first, others⟩ := List.forall_mem_cons.mp inside
    have := ih tok.loc.stop first.2.2 fun later mem => ⟨before later mem, (others later mem).2⟩
    rw [List.length_cons]
    omega

/-- One source after another. -/
theorem append {m : Nat} {others : List Token}
    (first : s.Scans t n tokens) (second : t.Scans u m others)
    (onward : ∀ k, t.spellings.has k = true → u.spellings.has k = true) :
    s.Scans u (n + m) (tokens ++ others) where
  opens := second.opens
  roomy := second.roomy
  base := by
    rw [second.base, first.base]
    omega
  spelled := List.forall_mem_append.mpr ⟨fun tok mem name => onward _ (first.spelled tok mem name),
    second.spelled⟩
  more := List.forall_mem_append.mpr ⟨first.more, second.more⟩
  inside := by
    have low := first.base
    have high := second.base
    refine List.forall_mem_append.mpr ⟨fun tok mem => ?_, fun tok mem => ?_⟩
    · have := first.inside tok mem
      omega
    · have := second.inside tok mem
      omega
  apart := List.pairwise_append.mpr ⟨first.apart, second.apart, fun tok mem later mem' =>
    (first.inside tok mem).2.2.trans (second.inside later mem').1⟩

end Scans

open Lexeme Segment in
/-- The tokens of a source that fits in memory. -/
theorem tokenize_scans (opens : s.Opens) (roomy : s.journal.Roomy)
    (features : Features) (name : String) {content : List Char}
    (fits : (s.journal.nextBase : Int) + content.length ≤ largestBlock) : ∃ t tokens ending,
    s.tokenize features name content = .ok (t, tokens ++ [ending]) ∧ ending.kind = .endOfInput ∧
    s.Scans t (content.length + 1) tokens := by
  set base := s.journal.nextBase with start
  set opened : Session := { s with journal := s.journal.addFile name content.toArray } with file
  have roomy : opened.journal.Roomy := by
    refine roomy.imp_right fun roomy other mem => ?_
    rcases Array.mem_push.mp mem with old | rfl
    · exact roomy other old
    · simp only [List.size_toArray]
      omega
  obtain ⟨segments, taken, last, all, whole, fit, covered, others, isLast, -, -, -, -, below⟩ :=
    scanAll_segments features ⟨base, content⟩
  have near : ∀ n ∈ (scanAll features ⟨base, content⟩).flatMap Scan.notes, n.loc.Near :=
    fun n mem => by
    refine (below n (all ▸ mem)).near ?_
    simp only [Cursor.limit, largestBlock] at fits ⊢
    omega
  obtain ⟨t, made, read, tokensOf, adds⟩ := takeScans_ok features roomy near
  rw [all] at tokensOf
  obtain ⟨tokens, ending, rfl, first, ⟨u, rfl⟩⟩ := forall₂_concat tokensOf
  have places : tokens.map (·.loc) = (ranges base segments).map fun range =>
    ⟨range.1, range.2⟩ := by
    rw [map_loc_tokens first, ← covered, List.map_map]
    rfl
  obtain ⟨inside, ordered⟩ := tokens_ordered fit places
  have next : t.journal.nextBase = base + (content.length + 1) := by
    rw [Journal.nextBase, adds.files]
    simp [opened, Journal.addFile, start, Nat.add_assoc]
  have named := takeScans_named (standing_opens.journal s _ opens) (fun scan mem => ?_) read
  · have opens' := standing_opens.takeScans (standing_opens.journal s _ opens) read
    refine ⟨t, tokens, _, read, by rw [isLast]; rfl, opens', adds.roomy roomy, next,
      fun tok mem => named tok (List.mem_append_left _ mem), kind_tokens first others,
      fun tok mem => ?_, ordered⟩
    have here := inside tok mem
    rw [whole] at here
    simp only at here
    omega
  · rw [all, List.mem_append, List.mem_singleton] at mem
    intro same
    rcases mem with inner | rfl
    · have plain := others scan inner
      rw [same] at plain
      cases plain
    · cases isLast.symm.trans same

end Session

namespace Compilation

variable {s t : Session} {options : Options} {sources : List Source} {out : Compilation}

/-- The offset behind some sources. -/
def extent (sources : List Source) : Nat :=
  (sources.map fun source => source.content.length + 1).sum

/-- The sources can be held in memory together with four words for each of their characters. -/
def Fits (sources : List Source) : Prop := 4 * ((extent sources : Int) + 2) ≤ largestBlock

theorem fits_jumpingProgram : Fits jumpingProgram := by
  unfold Fits
  decide +kernel

theorem joined_cons {tokens : List Token} {ending : Token}
    (more : ∀ tok ∈ tokens, tok.kind ≠ .endOfInput) (last : ending.kind = .endOfInput)
    (files : List (List Token)) :
    joined ((tokens ++ [ending]) :: files) = tokens ++ joined files := by
  rw [joined, joined, List.flatten_cons, List.filter_append, List.filter_append]
  congr 1
  rw [List.filter_eq_self.mpr fun tok mem => by simpa using more tok mem, List.filter_singleton]
  simp [last]

theorem tokenizeEach_scans (features : Features) (opens : s.Opens) (roomy : s.journal.Roomy)
    (fits : (s.journal.nextBase : Int) + extent sources ≤ largestBlock) :
    ∃ t files, tokenizeEach features s sources = .ok (t, files) ∧
    s.Scans t (extent sources) (joined files) := by
  induction sources generalizing s with
  | nil => exact ⟨s, [], rfl, .refl opens roomy⟩
  | cons source rest ih =>
    have sum : extent (source :: rest) = source.content.length + 1 + extent rest := by simp [extent]
    rw [sum] at fits ⊢
    obtain ⟨t, tokens, ending, read, last, first⟩ :=
      @Session.tokenize_scans s opens roomy features source.name source.content (by omega)
    have base := first.base
    obtain ⟨u, files, later, others⟩ := ih first.opens first.roomy (by omega)
    refine ⟨u, (tokens ++ [ending]) :: files, ?_, ?_⟩
    · rw [tokenizeEach, read]
      change (tokenizeEach features t rest >>= fun out =>
        pure (out.1, (tokens ++ [ending]) :: out.2)) = _
      rw [later]
      rfl
    · rw [joined_cons first.more last]
      exact first.append others fun k known => (Session.standing_has k).tokenizeEach known later

/-! ## Runs -/

theorem near_endOfSources (fits : (s.journal.nextBase : Int) ≤ largestBlock) :
    (endOfSources s).Near := by
  unfold endOfSources
  unfold Journal.nextBase at fits
  cases last : s.journal.files.back? with
  | none => exact Location.near_none
  | some file =>
    simp only [last, largestBlock] at fits
    exact ⟨by simp only [largestBlock]; omega, by simp only [largestBlock]; omega⟩

/-- Scanned sources can be read. -/
theorem offers_joined {ok : Fault → Prop} {files : List (List Token)}
    (base : t.journal.nextBase = 0) (fits : Fits sources)
    (scans : t.Scans s (extent sources) (joined files)) :
    s.Offers ok (joined files ++ [.bare .endOfInput (endOfSources s)]) where
  spelled := .inr (List.forall_mem_append.mpr ⟨scans.spelled, List.forall_mem_singleton.mpr nofun⟩)
  near := by
    have length := scans.length_le
    have next := scans.base
    rw [base, Nat.zero_add] at next
    have room : 4 * ((extent sources : Int) + 2) ≤ largestBlock := fits
    refine .inr ⟨List.forall_mem_append.mpr ⟨fun tok mem => ?_, List.forall_mem_singleton.mpr ?_⟩,
      ?_, scans.roomy⟩
    · have inside := scans.inside tok mem
      simp only [largestBlock] at room
      exact ⟨by simp only [largestBlock]; omega, by simp only [largestBlock]; omega⟩
    · refine near_endOfSources ?_
      simp only [largestBlock] at room ⊢
      omega
    · rw [List.length_append, List.length_singleton]
      push_cast
      omega

/-- The ruler of scanned sources has all their tokens. -/
theorem takeWhile_joined {files : List (List Token)}
    (scans : t.Scans s (extent sources) (joined files)) :
    (joined files ++ [Token.bare .endOfInput (endOfSources s)]).takeWhile (fun tok =>
      tok.kind != .endOfInput) = joined files := by
  rw [List.takeWhile_append_of_pos fun tok mem => by simpa using scans.more tok mem]
  simp [Token.bare]

/-- Sources that fit in memory are scanned, all of them. -/
theorem scan_scans (options : Options) (fits : Fits sources) :
    ∃ (s : Session) (files : List (List Token)),
    scan options sources = .ok (s, joined files ++ [.bare .endOfInput (endOfSources s)]) ∧
    (opening options).Scans s (extent sources) (joined files) := by
  have opens : (opening options).Opens := Session.opens_new _
  have roomy : (opening options).journal.Roomy := .inr (by simp [opening, Journal.new, Session.new])
  have room : ((opening options).journal.nextBase : Int) + extent sources ≤ largestBlock := by
    have fits : 4 * ((extent sources : Int) + 2) ≤ largestBlock := fits
    have base : (opening options).journal.nextBase = 0 := rfl
    omega
  obtain ⟨s, files, each, scans⟩ := tokenizeEach_scans options.features opens roomy room
  refine ⟨s, files, ?_, scans⟩
  rw [scan, each]
  rfl

/-- A compilation reads the tokens that were scanned. -/
theorem run_of_scan {tokens : List Token} (some : sources ≠ [])
    (scanned : scan options sources = .ok (s, tokens)) :
    run options sources = analyze s tokens >>= fun read =>
      if read.1.journal.hadError then pure ⟨read.1, .error (.diagnostics read.1.journal.errorCount)⟩
      else Lowering.generate read.1 read.2 >>= fun made =>
          pure ⟨made.1, made.2.mapError .generation⟩ := by
  rw [run, if_neg (by simpa using some), scanned]
  rfl

/-- **Locations nest.** Where the tokens before the end of the input have locations that are not
empty and increase, and nothing was wrong, the location of every node below the root is not empty
and holds those of its children, and the locations of siblings are disjoint and in their order. -/
theorem analyze_nested (opens : s.Opens)
    (rising : Rising ((tokens.takeWhile fun tok => tok.kind != .endOfInput).map Token.loc))
    (done : analyze s tokens = .ok (t, root)) (clean : t.journal.hadError = false) :
    ∃ parts : List Rose, root = t.tree.root ∧ t.tree.Holds (.unit parts) ∧
    (parts.Pairwise fun a b => a.location.stop ≤ b.location.start) ∧
    ∀ x ∈ parts, ∀ y ∈ x.nodes, y.location.start < y.location.stop ∧
    (∀ z ∈ y.children, y.location.start ≤ z.location.start ∧ z.location.stop ≤ y.location.stop) ∧
    y.children.Pairwise fun a b => a.location.stop ≤ b.location.start := by
  obtain ⟨parts, str, top, holds, -, -, row, order⟩ := analyze_parts opens done clean
  rw [Grammar.ruler_course] at row order
  exact ⟨parts, top, holds, List.pairwise_map.mp (rising.row_apart row),
    fun x mem y inside => (order x mem).2.spans rising inside⟩

/-- The tokens of a scanned source. -/
theorem analyze_nested_jumping :
    ∃ (s t : Session) (tokens : List Token) (root : Handle) (parts : List Rose), s.Opens ∧
    Rising ((tokens.takeWhile fun tok => tok.kind != .endOfInput).map Token.loc) ∧
    analyze s tokens = .ok (t, root) ∧ t.journal.hadError = false ∧ t.tree.Holds (.unit parts) ∧
    ∀ x ∈ parts, ∀ y ∈ x.nodes, y.children.Pairwise fun a b =>
    a.location.stop ≤ b.location.start := by
  obtain ⟨out, done, clean⟩ := compiles_jumpingProgram
  obtain ⟨s, files, scanned, scans⟩ := scan_scans .initial fits_jumpingProgram
  rw [run_of_scan (by simp [jumpingProgram]) scanned] at done
  obtain ⟨⟨t, root⟩, read, done⟩ := Guarded.bind_eq_ok.mp done
  dsimp only at done
  split at done
  next dirty =>
    cases done
    exact absurd (clean.symm.trans dirty) (by decide)
  next noError =>
    have rising := scans.rising
    rw [← takeWhile_joined scans] at rising
    obtain ⟨parts, -, holds, -, spans⟩ :=
      analyze_nested scans.opens rising read (by simpa using noError)
    exact ⟨s, t, _, root, parts, scans.opens, rising, read, by simpa using noError, holds,
      fun x mem y inside => (spans x mem y inside).2.2⟩

/-- **Compilations are decided.** Sources that fit in memory are scanned. If reading their tokens
comes to an end, then the compilation ends, in one of two ways. Either errors were reported, and
there is no image; or no error was reported, and the generator gives an image: then only definitions
of functions and declarations stand under the root of the tree, in the order of the sources, and the
generator can lower every node below them. -/
theorem run_decided (some : sources ≠ []) (fits : Fits sources) :
    ∃ s tokens, scan options sources = .ok (s, tokens) ∧ (analyze s tokens ≠ .error .endless →
      ∃ out, run options sources = .ok out ∧ ((out.session.journal.hadError = true ∧ out.result =
      .error (.diagnostics out.session.journal.errorCount)) ∨ (out.session.journal.hadError =
      false ∧ ∃ (image : Image) (s : Session) (parts : List Rose), out.result = .ok image ∧
      s.Seen out.session ∧ out.session.tree.Holds (.unit parts) ∧ WellFormed s (.unit parts) ∧
      (∀ x ∈ parts, x.kind = .functionDefinition ∨ x.kind = .declaration) ∧
      parts.Pairwise fun x y => x.location.stop ≤ y.location.start))) := by
  obtain ⟨s, files, scanned, scans⟩ := scan_scans options fits
  refine ⟨s, _, scanned, fun stops => ?_⟩
  rw [run_of_scan some scanned]
  have ends : (analyze s _).Ends (· = .endless) _ :=
    analyze_ends scans.opens (offers_joined rfl fits scans) rfl
  cases read : analyze s (joined files ++ [.bare .endOfInput (endOfSources s)]) with
  | error f =>
    rw [read] at ends stops
    exact absurd (congrArg Except.error ends) stops
  | ok found =>
    obtain ⟨u, root⟩ := found
    by_cases dirty : u.journal.hadError = true
    · exact ⟨_, if_pos dirty, .inl ⟨dirty, rfl⟩⟩
    · have clean : u.journal.hadError = false := by simpa using dirty
      obtain ⟨parts, str, rfl, holds, wf, -, row, -⟩ := analyze_parts scans.opens read clean
      obtain ⟨t, image, stop, generated, seen, -⟩ := generate_wellFormed wf
      have generated : Lowering.generate u u.tree.root = _ := generated
      rw [Grammar.ruler_course, takeWhile_joined scans] at row
      have order := List.pairwise_map.mp (scans.rising.row_apart row)
      have forms : ∀ x ∈ parts, x.kind = .functionDefinition ∨ x.kind = .declaration :=
        fun x mem => by
        rcases wf.parts x mem with declaration | ⟨body, function⟩
        · exact .inr declaration.kind
        · exact .inl function.kind
      have lowered :
        (if u.journal.hadError then pure ⟨u, .error (.diagnostics u.journal.errorCount)⟩
          else Lowering.generate u u.tree.root >>= fun made =>
            pure ⟨made.1, made.2.mapError .generation⟩ :
          Guarded Compilation) = .ok ⟨t, .ok image⟩ := by
        rw [if_neg dirty, generated]
        rfl
      exact ⟨⟨t, .ok image⟩, lowered, .inr ⟨seen.journal ▸ clean, image, u, parts, rfl, seen,
        seen.tree ▸ holds, wf, forms, order⟩⟩

/-- The tokens of the scanned program are read to the end, so it is compiled. -/
theorem run_decided_jumping : ∃ (s : Session) (tokens : List Token) (out : Compilation),
    scan Options.initial jumpingProgram = .ok (s, tokens) ∧ analyze s tokens ≠ .error .endless ∧
      run Options.initial jumpingProgram = .ok out ∧ out.session.journal.hadError = false ∧
      ∃ image, out.result = .ok image := by
  have some : jumpingProgram ≠ [] := by simp [jumpingProgram]
  obtain ⟨out, done, clean⟩ := compiles_jumpingProgram
  obtain ⟨s, tokens, scanned, decided⟩ :=
    @run_decided .initial jumpingProgram some fits_jumpingProgram
  have stops : analyze s tokens ≠ .error .endless := by
    intro endless
    rw [run_of_scan some scanned, endless] at done
    cases done
  obtain ⟨out', done', ⟨dirty, -⟩ | ⟨-, image, -, -, made, -⟩⟩ := decided stops
  all_goals cases done.symm.trans done'
  · exact absurd (clean.symm.trans dirty) (by decide)
  · exact ⟨s, tokens, out, scanned, stops, done, clean, image, made⟩

end Compilation

end BilingualC
