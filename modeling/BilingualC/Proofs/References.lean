import Mathlib
import BilingualC.Proofs.Lowering.Listing
import BilingualC.Proofs.Reading.Sources
import BilingualC.Proofs.Reading.Types
import BilingualC.Proofs.Session.Interning

/-!
# References between the tables of an image

An image has three tables besides its memory: declarations, spellings and types. Each of them is a
sequence of records, a record names others by their numbers or places, and some instructions name a
declaration or a type. `Image.Consistent` says that all these names are names of records that are
there.

* The tables of a session are linked at any time (`Session.Linked`), if the names among the tokens
  are stored. Scanning stores them (`Compilation.run_spelled`).
* The generator changes displacements only, so the tables of the image are those of the checked
  program (`Session.Linked.consistent`).
* What an instruction names comes from a node of the program, and the rule of the node says that it
  is there (`Session.emits_ruled`).

Main result: `Compilation.run_consistent`.
-/

namespace BilingualC

open Guarded Rose

/-! ## Records of the tables -/

namespace Image

/-- A row of the table of declarations. -/
structure DeclarationRow where
  previous : Int
  spelling : Int
  type : Int
  displacement : Int

def DeclarationRow.words (row : DeclarationRow) : List Int :=
  [row.previous, row.spelling, row.type, row.displacement]

/-- A record of the table of spellings: the declaration that the text stands for, its length and its
characters. -/
structure SpellingRow where
  declaration : Int
  text : String

def SpellingRow.words (row : SpellingRow) : List Int :=
  row.declaration :: row.text.length :: row.text.toList.map fun c => (c.toNat : Int)

/-- What an instruction names is there: a declaration by its number, or a type that is a scalar type
or the place of a record. -/
def Names (rows : List DeclarationRow) (records : List TypeRecord) : Instruction → List Int → Prop
  | .single .print, operands =>
    ∃ type, operands = [type] ∧ type ≠ TypeId.undefined ∧ TypeTable.IsName records type
  | .single .printIdentifier, operands | .single .readIdentifier, operands =>
    ∃ id, operands = [id] ∧ 0 < id ∧ id ≤ rows.length
  | _, _ => True

/-- The tables of an image are sequences of records, and all that these and the instructions name is
there. Numbers start with one. -/
structure Consistent (image : Image) (rows : List DeclarationRow) (texts : List SpellingRow)
    (records : List TypeRecord) : Prop where
  declarations : image.identifiers = rows.flatMap DeclarationRow.words
  spellings : image.representations = texts.flatMap SpellingRow.words
  types : image.types = records.flatMap TypeRecord.words
  previous : ∀ (k : Nat) (row : DeclarationRow), rows[k]? = some row → row.previous = 0 ∨
    ∃ (j : Nat) (earlier : DeclarationRow), j < k ∧ rows[j]? = some earlier ∧ row.previous = j + 1 ∧
    earlier.spelling = row.spelling
  spelled : ∀ row ∈ rows, 0 < row.spelling ∧ row.spelling ≤ texts.length
  typed : ∀ row ∈ rows, TypeTable.IsName records row.type
  distinct : (texts.map SpellingRow.text).Nodup
  refers : ∀ (k : Nat) (text : SpellingRow), texts[k]? = some text → text.declaration = 0 ∨
    ∃ (j : Nat) (row : DeclarationRow), rows[j]? = some row ∧ text.declaration = j + 1 ∧
    row.spelling = k + 1
  components : ∀ before r after, records = before ++ r :: after →
    ∀ e ∈ r.components, TypeTable.IsName before e
  memory : Listing image.memory (Names rows records) Image.codeStart image.memory.length

theorem names_other {rows : List DeclarationRow} {records : List TypeRecord} {i : Instruction}
    (quiet : i.refers = false) (operands : List Int) : Names rows records i operands := by
  unfold Names
  split
  · cases quiet
  · cases quiet
  · cases quiet
  · trivial

end Image

/-! ## Tables of a session -/

namespace Session

variable {s t : Session}

/-- The declarations as rows. -/
def declarationRows (s : Session) : List Image.DeclarationRow :=
  (s.identifiers.toList.drop 1).map fun e => ⟨e.previous, e.spelling, e.type, e.displacement⟩

/-- The spellings as rows. -/
def spellingRows (s : Session) : List Image.SpellingRow :=
  (s.spellings.entries.toList.drop 1).map fun e => ⟨e.declaration, e.text⟩

theorem length_declarationRows (s : Session) :
    s.declarationRows.length = s.identifiers.size - 1 := by
  simp [declarationRows]

theorem length_spellingRows (s : Session) :
    s.spellingRows.length = s.spellings.entries.size - 1 := by
  simp [spellingRows]

theorem identifierTable_rows (s : Session) :
    s.identifierTable = s.declarationRows.flatMap Image.DeclarationRow.words := by
  rw [declarationRows, List.flatMap_map]
  rfl

theorem table_rows (s : Session) :
    s.spellings.table = s.spellingRows.flatMap Image.SpellingRow.words := by
  rw [spellingRows, List.flatMap_map]
  rfl

/-- The rows are those of the numbers from one on. -/
theorem declarationRows_iff {k : Nat} {row : Image.DeclarationRow} :
    s.declarationRows[k]? = some row ↔ k + 1 < s.identifiers.size ∧
    row = ⟨(s.identifier (k + 1 : Nat)).previous, (s.identifier (k + 1 : Nat)).spelling,
      (s.identifier (k + 1 : Nat)).type, (s.identifier (k + 1 : Nat)).displacement⟩ := by
  rw [declarationRows, List.getElem?_map, List.getElem?_drop, Array.getElem?_toList,
    Nat.add_comm 1 k]
  by_cases inside : k + 1 < s.identifiers.size
  · have there : s.identifier (k + 1 : Nat) = s.identifiers[k + 1] := by
      rw [identifier_of_range (by omega) (by omega), Int.toNat_natCast, Array.getD_eq_getD_getElem?,
        Array.getElem?_eq_getElem inside]
      rfl
    rw [Array.getElem?_eq_getElem inside, there]
    simp [inside, eq_comm]
  · rw [Array.getElem?_eq_none (by omega)]
    simp [inside]

theorem spellingRows_declaration {k : Nat} {row : Image.SpellingRow}
    (there : s.spellingRows[k]? = some row) : row.declaration = s.lookup (k + 1 : Nat) := by
  rw [spellingRows, List.getElem?_map, List.getElem?_drop, Array.getElem?_toList,
    Nat.add_comm 1 k] at there
  obtain ⟨e, entry, rfl⟩ := Option.map_eq_some_iff.mp there
  have high := (Array.getElem?_eq_some_iff.mp entry).1
  have known : s.spellings.has (k + 1 : Nat) = true := Spellings.has_iff.mpr ⟨by omega, by omega⟩
  rw [lookup, Spellings.declaration, if_pos known, Int.toNat_natCast,
    Array.getD_eq_getD_getElem?, entry]
  rfl

theorem texts_spellingRows (s : Session) :
    s.spellingRows.map Image.SpellingRow.text = s.spellings.texts := by
  rw [spellingRows, List.map_map]
  rfl

/-- A number of a declaration is that of a row. -/
theorem exists_row {id : Int} (low : 0 < id) (high : id < s.identifiers.size) :
    ∃ (j : Nat) (row : Image.DeclarationRow), s.declarationRows[j]? = some row ∧ id = j + 1 ∧
    row.spelling = (s.identifier id).spelling := by
  obtain ⟨j, rfl⟩ : ∃ j : Nat, id = (j + 1 : Nat) := ⟨id.toNat - 1, by omega⟩
  exact ⟨j, _, declarationRows_iff.2 ⟨by omega, rfl⟩, by omega, rfl⟩

/-- The tables after the generator are consistent if those before it were linked. -/
theorem Linked.consistent {records : List TypeRecord} {image : Image}
    (linked : s.Linked) (regular : s.Regular) (seen : s.Seen t)
    (tiling : s.types.Tiling records) (declarations : image.identifiers = t.identifierTable)
    (spellings : image.representations = t.spellings.table) (types : image.types = t.types.table)
    (memory : Listing image.memory (Image.Names t.declarationRows records) Image.codeStart
      image.memory.length) : image.Consistent t.declarationRows t.spellingRows records := by
  have size := seen.identifiers
  -- the generator changes displacements only, so the links of the session are those of the image
  have entry (id : Int) : (t.identifier id).previous = (s.identifier id).previous ∧
    (t.identifier id).spelling = (s.identifier id).spelling := by
    rw [seen.entry id]
    exact ⟨rfl, rfl⟩
  have row {k : Nat} {row : Image.DeclarationRow} (there : t.declarationRows[k]? = some row) :
      k + 1 < s.identifiers.size ∧ row.previous = (s.identifier (k + 1 : Nat)).previous ∧
      row.spelling = (s.identifier (k + 1 : Nat)).spelling ∧
      row.type = (s.identifier (k + 1 : Nat)).type := by
    obtain ⟨low, rfl⟩ := declarationRows_iff.1 there
    exact ⟨size ▸ low, (entry _).1, (entry _).2, seen.type _⟩
  refine ⟨declarations.trans (identifierTable_rows t), spellings.trans (table_rows t), ?_, ?_, ?_,
    ?_, ?_, ?_, tiling.components, memory⟩
  · rw [types, seen.types, TypeTable.table, tiling.cells]
    rfl
  · intro k r there
    obtain ⟨high, previous, spelling, -⟩ := row there
    rw [previous, spelling]
    refine (linked.previous _).imp_right fun ⟨pos, before, same⟩ => ?_
    -- rows are numbered from one, since the entry of index 0 stands for nothing
    obtain ⟨j, earlier, found, number, spelled⟩ := exists_row (s := t) pos (by omega)
    exact ⟨j, earlier, by omega, found, number, by rw [spelled, (entry _).2, same]⟩
  · intro r mem
    obtain ⟨k, there⟩ := List.mem_iff_getElem?.mp mem
    obtain ⟨high, -, spelling, -⟩ := row there
    obtain ⟨pos, low⟩ := Spellings.has_iff.mp (linked.spelled (k + 1 : Nat) (by omega) (by omega))
    rw [length_spellingRows, seen.spellings, spelling]
    omega
  · intro r mem
    obtain ⟨k, there⟩ := List.mem_iff_getElem?.mp mem
    obtain ⟨-, -, -, type⟩ := row there
    obtain ⟨others, other, name⟩ := regular.named (k + 1 : Nat)
    rw [type, tiling.unique other]
    exact name
  · rw [texts_spellingRows, seen.spellings]
    exact linked.stored.nodup_texts
  · intro k text there
    have stands := spellingRows_declaration there
    rw [show t.lookup = s.lookup by unfold lookup; rw [seen.spellings]] at stands
    rw [stands]
    obtain ⟨low, high, -⟩ := regular.lookup (k + 1 : Nat)
    refine (Classical.em _).imp_right fun some => ?_
    have low : 0 < s.lookup (k + 1 : Nat) := by omega
    have high : s.lookup (k + 1 : Nat) < t.identifiers.size := by omega
    obtain ⟨j, r, found, number, spelled⟩ := exists_row low high
    refine ⟨j, r, found, number, ?_⟩
    rw [spelled, (entry _).2, (linked.refers _).resolve_left some, Nat.cast_succ]

/-! ## Instructions -/

/-- What the nodes of a part emit names what is there. -/
theorem emits_ruled {ok : Fault → Prop} {str : TypeId} {r : Rose}
    {records : List TypeRecord} {rows : List Image.DeclarationRow}
    (part : r.IsPart) (tables : s.Tables) (tiling : s.types.Tiling records)
    (string : s.types.Holds str (.array TypeId.char)) (tame : s.types.Tame ok r) {names : NameEnds}
    (ruled : s.Ruled names str r) (count : rows.length = s.identifiers.size - 1) :
    ∀ x ∈ r.nodes, x.Emits s (Piece.Each (Image.Names rows records)) := by
  intro x mem
  -- the argument of a library function that takes declared names
  have declared {c : Rose} (inside : c ∈ x.children) (kind : c.kind = .identifier) : 0 < c.arg 2 ∧
    c.arg 2 ≤ rows.length := by
    have rule := ruled c (mem_nodes_trans (mem_nodes_child inside c.mem_nodes_self) mem)
    have named : s.NameRule c := by
      unfold Rule at rule
      rw [kind] at rule
      cases kids : c.children with
      | nil => simpa only [kids] using rule
      | cons y ys =>
        rw [kids] at rule
        cases rule
    have range := named.1
    omega
  refine ⟨fun _ => trivial, ?_, ?_, ?_⟩
  · intro kind op c inside
    have below := mem_nodes_trans (mem_nodes_child inside c.mem_nodes_self) mem
    have expr :=
      isExpr_of_mem (part.callsLibrary x mem kind) c (mem_nodes_child inside c.mem_nodes_self)
    have operand := tame c below (isExpr_kind expr).1
    have defined := Ruled.defined (fun y inner =>
      ruled y (mem_nodes_trans inner below)) tables string expr operand
    obtain ⟨others, other, name⟩ := operand.node.type
    exact ⟨c.exprType, rfl, defined.ne_undefined, tiling.unique other ▸ name⟩
  · intro kind op c inside
    have rule := ruled x mem
    simp only [Rule, kind, LibraryRule, op] at rule
    exact ⟨_, rfl, declared inside (rule.2.2.2 c inside).1⟩
  · intro kind op c inside
    have rule := ruled x mem
    simp only [Rule, kind, LibraryRule, op] at rule
    exact ⟨_, rfl, declared inside (rule.2.2.2 c inside).1⟩

end Session

/-! ## Images of the generator -/

namespace Lowering

variable {α β : Type} {m : Lower α} {f : α → Lower β} {g h k : Lowering} {a : α} {b : β}
theorem Yields.bind_inv (run : Yields (m >>= f) g b k) : ∃ a h, Yields m g a h ∧
    Yields (f a) h b k := by
  obtain ⟨⟨a, h⟩, first, second⟩ := Guarded.bind_eq_ok.mp run
  exact ⟨a, h, first, second⟩

/-- A program that gives an image gives that of its last state. -/
theorem image_of_program {root : Handle} {img : Image} (run : Yields (program root) g (.ok img) h) :
    img = h.image := by
  unfold program at run
  obtain ⟨t, g₁, -, listed⟩ := run.bind_inv
  obtain ⟨numbers, g₂, -, emitted⟩ := listed.bind_inv
  obtain ⟨-, g₃, -, looked⟩ := emitted.bind_inv
  obtain ⟨before, g₄, -, lowered⟩ := looked.bind_inv
  split at lowered
  · cases lowered
  obtain ⟨entered, g₅, -, called⟩ := lowered.bind_inv
  dsimp only at called
  split at called
  · cases called
  obtain ⟨-, g₆, -, opened⟩ := called.bind_inv
  obtain ⟨-, g₇, -, jumped⟩ := opened.bind_inv
  obtain ⟨-, g₈, -, stopped⟩ := jumped.bind_inv
  obtain ⟨left, g₉, -, waited⟩ := stopped.bind_inv
  split at waited
  · cases waited
  obtain ⟨last, g₁₀, read, given⟩ := waited.bind_inv
  cases read
  cases given
  rfl

/-- The tables of an image are those of the session. -/
theorem image_of_generate {s t : Session} {root : Handle}
    {img : Image} (done : generate s root = .ok (t, .ok img)) :
    ∃ g : Lowering, g.session = t ∧ img = g.image := by
  obtain ⟨⟨result, g⟩, run, same⟩ := Guarded.bind_eq_ok.mp done
  cases same
  exact ⟨g, rfl, image_of_program run⟩
end Lowering

/-! ## Compilations -/

namespace Compilation

variable {s t : Session} {options : Options} {sources : List Source} {out : Compilation}

open Lexeme Segment in
/-- The names among the tokens of some sources are stored. -/
theorem tokenizeEach_named {features : Features} {files : List (List Token)} (opens : s.Opens)
    (done : tokenizeEach features s sources = .ok (t, files)) :
    ∀ tokens ∈ files, ∀ tok ∈ tokens, tok.kind = .identifier →
    t.spellings.has tok.spelling = true := by
  induction sources generalizing s t files with
  | nil =>
    cases done
    exact fun _ mem => (List.not_mem_nil mem).elim
  | cons source rest ih =>
    obtain ⟨⟨u, tokens⟩, scanned, later⟩ := Guarded.bind_eq_ok.mp done
    obtain ⟨⟨v, more⟩, others, same⟩ := Guarded.bind_eq_ok.mp later
    cases same
    have opened :=
      Session.standing_opens.journal s (s.journal.addFile source.name source.content.toArray) opens
    have named := Session.takeScans_named opened (fun scan mem same => ?_) scanned
    · exact List.forall_mem_cons.mpr ⟨fun tok mem name => (Session.standing_has _).tokenizeEach
        (named tok mem name) others, ih (Session.standing_opens.takeScans opened scanned) others⟩
    obtain ⟨segments, taken, last, all, whole, fit, covered, inner, isLast, -⟩ :=
      scanAll_segments features ⟨s.journal.nextBase, source.content⟩
    rw [all, List.mem_append, List.mem_singleton] at mem
    rcases mem with before | rfl
    · have plain := inner scan before
      rw [same] at plain
      cases plain
    · cases isLast.symm.trans same

/-- A compilation without errors has read tokens whose names are stored, and generated code. -/
theorem run_spelled (some : sources ≠ []) (done : run options sources = .ok out)
    (clean : out.session.journal.hadError = false) :
    ∃ (s u t : Session) (tokens : List Token) (root : Handle) (result :
      Except Lowering.GenerationError Image), s.Opens ∧ s.Offers (· ≠ .badIndex) tokens ∧
    analyze s tokens = .ok (u, root) ∧ u.journal.hadError = false ∧
    Lowering.generate u root = .ok (t, result) ∧ out = ⟨t, result.mapError .generation⟩ := by
  have loose : Loose (· ≠ .badIndex) := by simp [Loose]
  obtain ⟨s, u, t, tokens, root, result, scanned, opens, read, noError, made, same⟩ :=
    run_stages Session.standing_opens Session.opens_new some done clean
  obtain ⟨⟨s', files⟩, each, tied⟩ := Guarded.bind_eq_ok.mp scanned
  cases tied
  have named := tokenizeEach_named (Session.opens_new _) each
  refine ⟨s, u, t, _, root, result, opens, ⟨.inr fun tok mem name => ?_, .inl loose⟩, read,
    noError, made, same⟩
  rcases List.mem_append.mp mem with inside | last
  · obtain ⟨tokens, file, there⟩ := List.mem_flatten.mp (List.mem_filter.mp inside).1
    exact named tokens file tok there name
  · rw [List.mem_singleton.mp last] at name
    cases name

/-- **The tables of an image are consistent.** After a compilation without errors the tables of the
image are sequences of records, and whatever they and the instructions in the memory name is there:
a declaration hides an earlier one of its spelling, its spelling is stored and its type is that of a
record, a record is made of earlier ones, and a spelling stands for a declaration that has it. The
spellings come in the order of their numbers and without repetition. -/
theorem run_consistent (some : sources ≠ []) (done : run options sources = .ok out)
    (clean : out.session.journal.hadError = false) :
    ∃ image rows texts records, out.result = .ok image ∧ image.Consistent rows texts records ∧
    texts.map Image.SpellingRow.text = out.session.spellings.texts := by
  obtain ⟨s, u, t, tokens, root, result, opens, offers, read, noError, made, rfl⟩ :=
    run_spelled some done clean
  have ends : (analyze s tokens).Ends (· ≠ .badIndex) _ := analyze_ends opens offers (by decide)
  obtain ⟨c, whole, same, rfl, complete⟩ := analyze_complete opens.toFresh read noError
  rw [read] at ends
  obtain ⟨c', ns, r, rfl, -, left⟩ := ends
  have none : c'.errors = 0 :=
    not_not.mp fun some => Bool.false_ne_true (noError.symm.trans (Checker.dirty_iff.mpr some))
  obtain ⟨parts, outer, -, order⟩ := left.parts none
  have fine := left.held.fine
  have linked := fine.linked.resolve_left fun other => other rfl
  have wf := complete.wellFormed
  rw [same] at wf
  have holds : c'.session.tree.Holds (.unit parts) := by simpa using outer.stands.holds
  have one : Rose.unit whole = .unit parts := wf.has.eq holds.has rfl
  rw [one] at wf
  obtain ⟨t', image, stop, generated, seen, code⟩ := generate_wellFormed wf
  cases made.symm.trans generated
  obtain ⟨g, rfl, rfl⟩ := Lowering.image_of_generate generated
  obtain ⟨records, tiling⟩ := fine.regular.types
  have count : g.session.declarationRows.length = c'.session.identifiers.size - 1 := by
    rw [Session.length_declarationRows, seen.identifiers]
  have emits := fun x mem =>
    Session.emits_ruled (wf.parts x mem) outer.stands.tables tiling fine.string (order x mem).tame
      (order x mem).ruled count
  exact ⟨g.image, _, _, records, rfl, linked.consistent fine.regular seen tiling rfl rfl rfl
    (code.listing (fun _ _ quiet => Image.names_other quiet _) emits), g.session.texts_spellingRows⟩

theorem run_consistent_jumping :
    ∃ out image rows texts records, run Options.initial jumpingProgram = .ok out ∧
    out.session.journal.hadError = false ∧ out.result = .ok image ∧
    image.Consistent rows texts records := by
  obtain ⟨out, done, clean⟩ := compiles_jumpingProgram
  obtain ⟨image, rows, texts, records, given, consistent, -⟩ :=
    run_consistent (by simp [jumpingProgram]) done clean
  exact ⟨out, image, rows, texts, records, done, clean, given, consistent⟩

end Compilation

end BilingualC
