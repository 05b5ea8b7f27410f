import Mathlib
import BilingualC.Proofs.Image.Listing
import BilingualC.Proofs.Image.Text
import BilingualC.Proofs.Path
import BilingualC.Proofs.Text.Quoted

/-!
# Listings tell memories apart

A line determines the cells that it shows: the kinds of lines and the names of the instructions
cannot be mixed up (`ListingLine.content_injective`), and the frame of a text follows from its
address and its length. So two memories that are listed by the same text agree from the first
instruction on (`Listing.written_injective`).
-/

namespace BilingualC

/-! ## Names of instructions -/

namespace Instruction

/-- The names of instructions are different. -/
theorem name_nodup : (all.map name).Nodup := by
  -- Numbers are compared faster than texts.
  refine List.Nodup.of_map (fun s : String => s.toList.foldl (fun n c => 256 * n + c.toNat) 0) ?_
  decide +kernel

/-- No name can be taken for another part of a line. -/
theorem name_plain : ∀ i ∈ all, ' ' ∉ i.name.toList ∧ '\n' ∉ i.name.toList ∧
    ∃ c, i.name.toList.head? = some c ∧ c ≠ '.' := by
  have checked : ∀ i ∈ all, ' ' ∉ i.name.toList ∧ '\n' ∉ i.name.toList ∧
    i.name.toList.head?.any (· != '.') = true := by
    decide +kernel
  intro i mem
  obtain ⟨blank, line, first⟩ := checked i mem
  cases found : i.name.toList.head? with
  | none => simp [found] at first
  | some c => exact ⟨blank, line, c, rfl, by simpa [found] using first⟩

theorem all_nodup : all.Nodup := List.Nodup.of_map _ name_nodup

theorem name_injective {i j : Instruction} (first : i ∈ all) (second : j ∈ all)
    (same : i.name = j.name) : i = j :=
  List.inj_on_of_nodup_map name_nodup first second same

theorem ofCode?_eq_some {code : Int} {i : Instruction} (known : ofCode? code = some i) : i ∈ all ∧
    i.code = code := by
  unfold ofCode? at known
  split at known
  next => cases known
  next low =>
    rw [table, List.getElem?_toArray] at known
    obtain ⟨inside, rfl⟩ := List.getElem?_eq_some_iff.mp known
    refine ⟨List.getElem_mem inside, ?_⟩
    rw [Instruction.code, all_nodup.idxOf_getElem]
    omega

end Instruction

/-! ## Words and letters -/

namespace Text

theorem toString_injective {v w : Int} (same : toString v = toString w) : v = w := by
  have none : ∀ c ∈ ([] : List Char).head?, Image.isNumeral c = false := nofun
  have first := Image.takeNumber_append v none
  rw [same, Image.takeNumber_append w none] at first
  exact (congrArg Prod.fst (Option.some_inj.mp first)).symm

/-- A number has neither blanks nor line ends. -/
theorem not_mem_toString (w : Int) : ' ' ∉ (toString w).toList ∧ '\n' ∉ (toString w).toList :=
  ⟨fun mem => absurd (Image.isNumeral_of_mem_repr mem) (by decide),
    fun mem => absurd (Image.isNumeral_of_mem_repr mem) (by decide)⟩

/-- Texts without a mark are found again where marks stand between them. -/
theorem intercalate_injective {mark : Char} {s t : List Char} {ss ts : List (List Char)}
    (plain : ∀ x ∈ s :: ss, mark ∉ x) (plain' : ∀ x ∈ t :: ts, mark ∉ x)
    (same : s ++ ss.flatMap (mark :: ·) = t ++ ts.flatMap (mark :: ·)) : s = t ∧ ss = ts := by
  have pieces : ∀ (s : List Char) (ss : List (List Char)), (∀ x ∈ s :: ss, mark ∉ x) →
      cutAt (· == mark) (s ++ ss.flatMap (mark :: ·)) = s :: ss := by
    intro s ss plain
    have uncut : cutAt (· == mark) s = [s] := cutAt_eq_self fun c mem => by
      rw [beq_eq_false_iff_ne]
      rintro rfl
      exact plain s List.mem_cons_self mem
    induction ss generalizing s with
    | nil => rw [List.flatMap_nil, List.append_nil, uncut]
    | cons x xs ih =>
      have rest : ∀ y ∈ x :: xs, mark ∉ y := fun y mem => plain y (List.mem_cons_of_mem _ mem)
      have own : cutAt (· == mark) x = [x] := cutAt_eq_self fun c mem => by
        rw [beq_eq_false_iff_ne]
        rintro rfl
        exact rest x List.mem_cons_self mem
      rw [List.flatMap_cons, List.cons_append,
        cutAt_append_cons (· == mark) (beq_self_eq_true mark), uncut, ih x rest own]
      rfl
  have cuts := congrArg (cutAt (· == mark)) same
  rw [pieces s ss plain, pieces t ts plain'] at cuts
  exact List.cons.inj cuts

/-- A code of a character. -/
def IsScalar (w : Int) : Prop := 0 ≤ w ∧ w.toNat.isValidChar

theorem letterOfCode_injective {v w : Int} (first : IsScalar v) (second : IsScalar w)
    (same : letterOfCode (wrap32 v) = letterOfCode (wrap32 w)) : v = w := by
  have code {w : Int} (scalar : IsScalar w) : (letterOfCode (wrap32 w)).toNat = w.toNat := by
    have small : w.toNat < 1114112 := by
      rcases scalar.2 with low | ⟨-, high⟩
      · exact low.trans (by decide)
      · exact high
    have kept : wrap32 w = w := by
      have fits := (fitsInt_iff w).mpr (by have := scalar.1; omega)
      exact (beq_iff_eq.mp fits).symm
    rw [kept, letterOfCode, if_pos (by simp [scalar.1, scalar.2])]
    rw [Char.ofNat, dif_pos scalar.2]
    rfl
  have codes := congrArg Char.toNat same
  rw [code first, code second] at codes
  have low := first.1
  have low' := second.1
  omega

end Text

/-! ## Lines -/

namespace ListingLine

/-- The cells that a line at an address shows. -/
def cells (a : Nat) : ListingLine → List Int
  | .text letters =>
    [Operation.code .loadConstant, (a + 5 : Nat), Operation.code .branch,
      (a + 5 + letters.length : Nat), letters.length] ++ letters
  | .instruction i operands => i.code :: operands
  | .word w => [w]

/-- The instruction of a line has a name, and its text can be read. -/
def Legible : ListingLine → Prop
  | .text letters => ∀ w ∈ letters, Text.IsScalar w
  | .instruction i _ => i ∈ Instruction.all
  | .word _ => True

/-- The characters of an instruction with its operands. -/
theorem toList_instruction (i : Instruction) (operands : List Int) :
    (instruction i operands).content.toList =
    i.name.toList ++ (operands.map fun w => (toString w).toList).flatMap (' ' :: ·) := by
  have chars (s : String) (ss : List String) : (" ".intercalate (s :: ss)).toList =
      s.toList ++ (ss.map String.toList).flatMap (' ' :: ·) := by
    induction ss generalizing s with
    | nil => simp [String.intercalate_singleton]
    | cons t ts ih =>
      rw [String.intercalate_cons_of_ne_nil (by simp)]
      simp [ih]
  have words := chars i.name (operands.map toString)
  rw [List.map_map] at words
  exact words

theorem head?_instruction {i : Instruction} (listed : i ∈ Instruction.all) (operands : List Int) :
    (instruction i operands).content.toList.head? ≠ some '.' := by
  obtain ⟨-, -, c, first, other⟩ := Instruction.name_plain i listed
  rw [toList_instruction, List.head?_append, first]
  simpa using other

/-- **Lines that look the same show the same.** -/
theorem content_injective {l m : ListingLine} (legible : l.Legible) (legible' : m.Legible)
    (same : l.content = m.content) : l = m := by
  have chars := congrArg String.toList same
  -- the kinds of lines differ in their first characters: a directive starts with a point, and the
  -- two directives differ behind it
  cases l with
  | text letters =>
    cases m with
    | text others =>
      simp only [content, String.toList_append, List.append_cancel_left_eq,
        String.toList_inj] at chars
      have texts := String.ofList_inj.mp (Text.quote_injective chars)
      refine congrArg text
        (List.ext_getElem (by simpa using congrArg List.length texts) fun k inside inside' => ?_)
      have letter := congrArg (fun cs => cs[k]?) texts
      simp only [List.getElem?_map, List.getElem?_eq_getElem inside,
        List.getElem?_eq_getElem inside', Option.map_some, Option.some_inj] at letter
      exact Text.letterOfCode_injective (legible _ (List.getElem_mem inside))
        (legible' _ (List.getElem_mem inside')) letter
    | instruction j operands =>
      refine absurd (congrArg List.head? chars.symm) fun first =>
        head?_instruction legible' operands ?_
      rw [first]
      simp [content]
    | word w => simp [content] at chars
  | instruction i operands =>
    cases m with
    | text others =>
      refine absurd (congrArg List.head? chars) fun first => head?_instruction legible operands ?_
      rw [first]
      simp [content]
    | instruction j others =>
      rw [toList_instruction, toList_instruction] at chars
      -- neither a name nor a number has a blank in it, so the blanks separate the words
      have plain {i : Instruction} (listed : i ∈ Instruction.all) (operands : List Int) :
          ∀ x ∈ i.name.toList :: operands.map fun w => (toString w).toList, ' ' ∉ x := by
        intro x mem
        rcases List.mem_cons.mp mem with rfl | mem
        · exact (Instruction.name_plain i listed).1
        · obtain ⟨w, -, rfl⟩ := List.mem_map.mp mem
          exact (Text.not_mem_toString w).1
      obtain ⟨names, words⟩ :=
        Text.intercalate_injective (plain legible operands) (plain legible' others) chars
      rw [Instruction.name_injective legible legible' (String.toList_inj.mp names)]
      have injective : Function.Injective fun w : Int => (toString w).toList :=
        fun v w same => Text.toString_injective (String.toList_inj.mp same)
      rw [List.map_injective_iff.mpr injective words]
    | word w =>
      refine absurd (congrArg List.head? chars) fun first => head?_instruction legible operands ?_
      rw [first]
      simp [content]
  | word w =>
    cases m with
    | text others => simp [content] at chars
    | instruction j operands =>
      refine absurd (congrArg List.head? chars.symm) fun first =>
        head?_instruction legible' operands ?_
      rw [first]
      simp [content]
    | word v =>
      simp only [content, String.toList_append, List.append_cancel_left_eq,
        String.toList_inj] at chars
      rw [Text.toString_injective chars]

/-- A line has no line end. -/
theorem newLine_not_mem_render {l : ListingLine} (legible : l.Legible) (a : Nat) :
    '\n' ∉ (l.render a).toList := by
  have address : '\n' ∉ (toString a).toList := (Text.not_mem_toString (a : Int)).2
  have content : '\n' ∉ l.content.toList := by
    cases l with
    | text letters => simp [ListingLine.content, Text.newLine_not_mem_quote]
    | instruction i operands =>
      rw [toList_instruction, List.mem_append, List.mem_flatMap]
      rintro (name | ⟨x, mem, operand⟩)
      · exact (Instruction.name_plain i legible).2.1 name
      · obtain ⟨w, -, rfl⟩ := List.mem_map.mp mem
        exact (Text.not_mem_toString w).2 ((List.mem_cons.mp operand).resolve_left (by decide))
    | word w =>
      rw [ListingLine.content, String.toList_append, List.mem_append, not_or]
      exact ⟨by decide, (Text.not_mem_toString w).2⟩
  rw [render, Text.padLeft]
  simp only [String.toList_append, String.toList_ofList, List.mem_append,
    List.mem_replicate, not_or]
  exact ⟨⟨⟨fun mem => absurd mem.2 (by decide), address⟩, by decide⟩, content⟩

end ListingLine

namespace Listing

variable {M N : List Int} {a b : Nat}

/-! ## Cells that are shown -/

theorem instructionAt_eq_some {i : Instruction} {operands : List Int}
    (found : instructionAt M a = some (i, operands)) : ∃ cell rest, M.drop a = cell :: rest ∧
    Instruction.ofCode? cell = some i ∧ i.operands ≤ rest.length ∧
    operands = rest.take i.operands := by
  unfold instructionAt at found
  split at found
  next => cases found
  next cell rest here =>
    split at found
    next => cases found
    next j known =>
      split at found
      next => cases found
      next room =>
        obtain ⟨rfl, rfl⟩ := Prod.mk.inj (Option.some_inj.mp found)
        exact ⟨cell, rest, here, known, by omega, rfl⟩

/-- A memory is one block of cells. -/
def IsBlock (M : List Int) : Prop := (M.length : Int) ≤ largestBlock

/-- The cells at the address of a line are those that the line determines. -/
theorem Shows.cells {line : ListingLine} (block : IsBlock M) (shows : Shows M a line) :
    M.drop a = line.cells a ++ M.drop (a + line.size) := by
  cases shows with
  | text framed possible =>
    obtain ⟨rest, cells⟩ := framed.cells
    have behind : M.drop (a + 5) = rest := by rw [← List.drop_drop, cells]; rfl
    have count := congrArg List.length cells
    simp only [List.length_drop, List.length_cons] at count
    rename_i length
    obtain ⟨low, high⟩ := possible
    have bound : largestBlock = 35184372088832 := rfl
    have short : (M.length : Int) ≤ largestBlock := block
    -- No word is so small that the end of the text could wrap around.
    have straight : wrap64 ((a + 5 : Nat) + length) = (a + 5 : Nat) + length :=
      wrap64_of_range (by omega) (by omega)
    have inside := framed.inside
    rw [straight] at inside cells
    have taken : (rest.take length.toNat).length = length.toNat := by
      rw [List.length_take]
      omega
    have whole : (length.toNat : Int) = length := Int.toNat_of_nonneg low
    have stop : ((a + 5 + length.toNat : Nat) : Int) = (a + 5 : Nat) + length := by
      push_cast
      omega
    rw [ListingLine.size, ListingLine.cells, behind, taken, ← Nat.add_assoc, ← List.drop_drop,
      behind, whole, stop, cells]
    simp only [List.cons_append, List.nil_append, List.take_append_drop]
  | instruction bare found =>
    obtain ⟨cell, rest, here, known, room, rfl⟩ := instructionAt_eq_some found
    have taken := List.length_take_of_le room
    rw [ListingLine.size, ListingLine.cells, taken,
      (Instruction.ofCode?_eq_some known).2, ← List.drop_drop, here,
      List.cons_append, Nat.add_comm, List.drop_succ_cons, List.take_append_drop]
  | word bare none here =>
    obtain ⟨inside, rfl⟩ := List.getElem?_eq_some_iff.mp here
    exact List.drop_eq_getElem_cons inside

theorem Covers.le {lines : List (Nat × ListingLine)} (covers : Covers M a lines b) : a ≤ b := by
  induction covers with
  | nil => exact Nat.le_refl _
  | cons _ _ _ ih => omega

/-- Lines for which the cells of texts are codes of characters. -/
def Readable (lines : List (Nat × ListingLine)) : Prop :=
  ∀ a letters, (a, .text letters) ∈ lines → ∀ w ∈ letters, Text.IsScalar w

theorem Covers.legible {lines : List (Nat × ListingLine)} (covers : Covers M a lines b)
    (readable : Readable lines) : ∀ p ∈ lines, p.2.Legible := by
  induction covers with
  | nil => exact nofun
  | cons shows _ _ ih =>
    intro p mem
    rcases List.mem_cons.mp mem with rfl | later
    · cases shows with
      | text => exact readable _ _ List.mem_cons_self
      | instruction _ found =>
        obtain ⟨_, _, -, known, -, -⟩ := instructionAt_eq_some found
        exact (Instruction.ofCode?_eq_some known).1
      | word => trivial
    · exact ih (fun a letters inside => readable a letters (List.mem_cons_of_mem _ inside)) p later

/-- Memories that are covered by the same lines have the same cells. -/
theorem Covers.cells {lines : List (Nat × ListingLine)} {c : Nat} (block : IsBlock M)
    (block' : IsBlock N) (covers : Covers M a lines b) (covers' : Covers N a lines c)
    (whole : M.length = b) (whole' : N.length = c) : M.drop a = N.drop a := by
  induction lines generalizing a with
  | nil =>
    cases covers
    cases covers'
    rw [List.drop_eq_nil_of_le whole.le, List.drop_eq_nil_of_le whole'.le]
  | cons p lines ih =>
    cases covers with
    | cons shows _ rest =>
      cases covers' with
      | cons shows' _ rest' => rw [shows.cells block, shows'.cells block', ih rest rest']

/-- Lines that are written in the same way are the same. -/
theorem Covers.same_lines {lines others : List (Nat × ListingLine)}
    {c : Nat} (covers : Covers M a lines b) (covers' : Covers N a others c)
    (legible : ∀ p ∈ lines, p.2.Legible) (legible' : ∀ p ∈ others, p.2.Legible)
    (same : lines.map (fun p => p.2.render p.1) = others.map (fun p => p.2.render p.1)) :
    lines = others := by
  induction lines generalizing a others with
  | nil => exact (List.map_eq_nil_iff.mp same.symm).symm
  | cons p lines ih =>
    cases covers with
    | cons shows _ rest =>
      cases covers' with
      | nil => simp at same
      | cons shows' _ rest' =>
        obtain ⟨first, later⟩ := List.cons.inj same
        have contents := congrArg String.toList first
        simp only [ListingLine.render, String.toList_append, List.append_cancel_left_eq,
          String.toList_inj] at contents
        obtain rfl := ListingLine.content_injective (legible _ List.mem_cons_self)
          (legible' _ List.mem_cons_self) contents
        rw [ih rest rest' (fun q mem => legible q (List.mem_cons_of_mem _ mem)) (fun q mem =>
          legible' q (List.mem_cons_of_mem _ mem)) later]

/-- The lines of a text that was written line by line. -/
theorem lines_of_written {lines others : List String}
    (plain : ∀ l ∈ lines, '\n' ∉ l.toList) (plain' : ∀ l ∈ others, '\n' ∉ l.toList)
    (same : String.join (lines.map (· ++ "\n")) = String.join (others.map (· ++ "\n"))) :
    lines = others := by
  have cuts (lines : List String) (plain : ∀ l ∈ lines, '\n' ∉ l.toList) :
      Text.cutAt (· == '\n') (String.join (lines.map (· ++ "\n"))).toList =
      lines.map String.toList ++ [[]] := by
    induction lines with
    | nil => rfl
    | cons l lines ih =>
      have own : Text.cutAt (· == '\n') l.toList = [l.toList] := Text.cutAt_eq_self fun c mem => by
        rw [beq_eq_false_iff_ne]
        rintro rfl
        exact plain l List.mem_cons_self mem
      have chars : (String.join ((l :: lines).map (· ++ "\n"))).toList =
          l.toList ++ '\n' :: (String.join (lines.map (· ++ "\n"))).toList := by
        simp
      rw [chars, Text.cutAt_append_cons (· == '\n') rfl, own,
        ih fun k mem => plain k (List.mem_cons_of_mem _ mem)]
      rfl
  have pieces := congrArg (fun s : String => Text.cutAt (· == '\n') s.toList) same
  simp only [cuts lines plain, cuts others plain'] at pieces
  exact List.map_injective_iff.mpr (fun _ _ => String.toList_inj.mp)
    (List.append_cancel_right pieces)

/-- **Listings are lossless.** Two memories from the first instruction on that are listed by the
same text have the same length and the same cells from there on, if the cells that are shown as
texts are codes of characters. -/
theorem written_injective {written written' : List String} (low : Image.codeStart ≤ M.length)
    (low' : Image.codeStart ≤ N.length) (block : IsBlock M) (block' : IsBlock N)
    (readable : ∀ lines, ofMemory M = .ok lines → Readable lines)
    (readable' : ∀ lines, ofMemory N = .ok lines → Readable lines)
    (listed : render M = .ok written) (listed' : render N = .ok written')
    (same : String.join (written.map (· ++ "\n")) = String.join (written'.map (· ++ "\n"))) :
    M.length = N.length ∧ ∀ i, Image.codeStart ≤ i → M[i]? = N[i]? := by
  have reading {M : List Int} {written : List String} (low : Image.codeStart ≤ M.length)
      (listed : render M = .ok written) : ∃ lines, ofMemory M = .ok lines ∧
      Covers M Image.codeStart lines M.length ∧ written = lines.map fun p => p.2.render p.1 := by
    rcases ofMemory_covers M with ⟨lines, ran, covers⟩ | ⟨_, _, _, -, -, -, fails⟩
    · rw [max_eq_right low] at covers
      rw [render, ran] at listed
      exact ⟨lines, ran, covers, (Except.ok.inj listed).symm⟩
    · rw [render, fails] at listed
      cases listed
  obtain ⟨lines, ran, covers, rfl⟩ := reading low listed
  obtain ⟨others, ran', covers', rfl⟩ := reading low' listed'
  have legible := covers.legible (readable _ ran)
  have legible' := covers'.legible (readable' _ ran')
  have plain {lines : List (Nat × ListingLine)} (legible : ∀ p ∈ lines, p.2.Legible) :
      ∀ l ∈ lines.map (fun p => p.2.render p.1), '\n' ∉ l.toList := by
    intro l mem
    obtain ⟨p, inside, rfl⟩ := List.mem_map.mp mem
    exact ListingLine.newLine_not_mem_render (legible p inside) p.1
  obtain rfl := covers.same_lines covers' legible legible'
    (lines_of_written (plain legible) (plain legible') same)
  have cells := covers.cells block block' covers' rfl rfl
  refine ⟨?_, fun i from_start => ?_⟩
  · have length := congrArg List.length cells
    simp only [List.length_drop] at length
    omega
  · have cell := congrArg (fun l => l[i - Image.codeStart]?) cells
    simpa [List.getElem?_drop, Nat.add_sub_cancel' from_start] using cell

/-- Two memories with a text in the code that differ below the first instruction only. -/
theorem written_injective_text : render [0, 0, 0, 0, 9010, 9, 9002, 11, 2, 72, 10, 42] =
    .ok ["     4: .string \"H\\n\"", "    11: .word 42"] ∧ ∀ i, Image.codeStart ≤ i →
    [0, 0, 0, 0, 9010, 9, 9002, 11, 2, 72, 10, (42 : Int)][i]? =
    [7, 6, 5, 4, 9010, 9, 9002, 11, 2, 72, 10, 42][i]? := by
  have listed : render [0, 0, 0, 0, 9010, 9, 9002, 11, 2, 72, 10, 42] =
    .ok ["     4: .string \"H\\n\"", "    11: .word 42"] := by
    cbv
  have listed' : render [7, 6, 5, 4, 9010, 9, 9002, 11, 2, 72, 10, 42] =
    .ok ["     4: .string \"H\\n\"", "    11: .word 42"] := by
    cbv
  have lines : ofMemory [0, 0, 0, 0, 9010, 9, 9002, 11, 2, 72, 10, 42] =
      .ok [(4, .text [72, 10]), (11, .word 42)] := by
    cbv
  have lines' : ofMemory [7, 6, 5, 4, 9010, 9, 9002, 11, 2, 72, 10, 42] =
      .ok [(4, .text [72, 10]), (11, .word 42)] := by
    cbv
  have readable : Readable [(4, .text [72, 10]), (11, .word 42)] := by
    simp [Readable, Text.IsScalar, Nat.isValidChar]
  have block : IsBlock [0, 0, 0, 0, 9010, 9, 9002, 11, 2, 72, 10, 42] :=
    show ((_ : Nat) : Int) ≤ largestBlock by decide
  have block' : IsBlock [7, 6, 5, 4, 9010, 9, 9002, 11, 2, 72, 10, 42] :=
    show ((_ : Nat) : Int) ≤ largestBlock by decide
  refine ⟨listed, (written_injective (by decide) (by decide) block block' (fun l ran => ?_)
    (fun l ran => ?_) listed listed' rfl).2⟩
  · exact Except.ok.inj (lines.symm.trans ran) ▸ readable
  · exact Except.ok.inj (lines'.symm.trans ran) ▸ readable

end Listing

end BilingualC
