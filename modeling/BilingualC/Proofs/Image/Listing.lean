import Mathlib
import BilingualC.Image.Listing
import BilingualC.Proofs.Lowering.Flow

/-!
# What a listing shows

A line shows the cells at its address: a text with the frame around it, an instruction with its
operands, or one cell (`Listing.Shows`). The lines of a memory cover it from the first instruction
to its end without gap or overlap, whatever its cells are, unless they come to the frame of a text
whose length no block can have (`Listing.ofMemory_covers`).
-/

namespace BilingualC

variable {M : List Int} {a b : Nat}

namespace Listing

/-- The frame of a text stands at an address: the address of the text is loaded, a jump leads to the
end of the text, which lies in the memory, and the length comes next. -/
structure Framed (M : List Int) (a : Nat) (length : Int) : Prop where
  cells : ∃ rest, M.drop a = Operation.code .loadConstant :: (a + 5 : Nat) ::
    Operation.code .branch :: wrap64 ((a + 5 : Nat) + length) :: length :: rest
  inside : wrap64 ((a + 5 : Nat) + length) ≤ M.length

/-- A block can have so many cells. -/
def Possible (length : Int) : Prop := 0 ≤ length ∧ length ≤ largestBlock

/-- A line shows the cells at an address: a text in its frame, otherwise an instruction with all its
operands, otherwise a single cell. -/
inductive Shows (M : List Int) (a : Nat) : ListingLine → Prop
  | text {length : Int} (framed : Framed M a length) (possible : Possible length) :
    Shows M a (.text ((M.drop (a + 5)).take length.toNat))
  | instruction {i : Instruction} {operands : List Int} (bare : ∀ n, ¬ Framed M a n)
    (found : instructionAt M a = some (i, operands)) : Shows M a (.instruction i operands)
  | word {w : Int} (bare : ∀ n, ¬ Framed M a n) (none : instructionAt M a = none)
      (here : M[a]? = some w) : Shows M a (.word w)

/-- Lines show the cells between two addresses: each has its own address, and the next one starts
where it ends. -/
inductive Covers (M : List Int) : Nat → List (Nat × ListingLine) → Nat → Prop
  | nil {a : Nat} : Covers M a [] a
  | cons {a b : Nat} {line : ListingLine} {lines : List (Nat × ListingLine)}
      (shows : Shows M a line) (inside : a + line.size ≤ M.length)
      (rest : Covers M (a + line.size) lines b) : Covers M a ((a, line) :: lines) b

/-! ## One line -/

/-- A text is looked for at the address of a frame. -/
theorem textAt?_framed {n : Int} (framed : Framed M a n) :
    (Possible n → textAt? a (M.drop a) = .ok (some ((M.drop (a + 5)).take n.toNat))) ∧
      (¬ Possible n → textAt? a (M.drop a) = .error .badLength) := by
  obtain ⟨rest, cells⟩ := framed.cells
  have behind : M.drop (a + 5) = rest := by rw [← List.drop_drop, cells]; rfl
  have length : a + 5 + rest.length = M.length := by
    have count := congrArg List.length cells
    simp only [List.length_drop, List.length_cons] at count
    omega
  have inside := framed.inside
  have stays : ¬ ((a : Int) + 5 + rest.length < wrap64 ((a + 5 : Nat) + n)) := by omega
  have found : textAt? a (M.drop a) =
      if n < 0 || largestBlock < n then throw .badLength else pure (some (rest.take n.toNat)) := by
    rw [cells, textAt?]
    refine if_neg ?_
    push_cast at stays ⊢
    simpa [Operation.code] using stays
  rw [found, behind]
  constructor
  · rintro ⟨low, high⟩
    exact if_neg (by simp [low, high])
  · intro impossible
    refine if_pos ?_
    rw [Possible, not_and_or] at impossible
    simpa using impossible

theorem textAt?_bare (bare : ∀ n, ¬ Framed M a n) : textAt? a (M.drop a) = .ok none := by
  unfold textAt?
  split
  next push first jump stop n rest cells =>
    refine if_pos (by_contra fun framed => bare n ?_)
    simp only [Bool.or_eq_true, bne_iff_ne, decide_eq_true_eq, not_or, not_not, not_lt] at framed
    obtain ⟨⟨⟨⟨rfl, rfl⟩, rfl⟩, rfl⟩, inside⟩ := framed
    have length : a + 5 + rest.length = M.length := by
      have count := congrArg List.length cells
      simp only [List.length_drop, List.length_cons] at count
      omega
    refine ⟨⟨rest, ?_⟩, ?_⟩
    · rw [cells]
      push_cast
      rfl
    · push_cast
      omega
  next => rfl

/-- Where no text stands, the line shows the instruction at the address or else the cell. -/
theorem shows_plainLine {cell : Int} {rest : List Int}
    (here : M.drop a = cell :: rest) (bare : ∀ n, ¬ Framed M a n) :
    Shows M a (plainLine cell rest) ∧ (plainLine cell rest).size ≤ rest.length + 1 := by
  have at_a : M[a]? = some cell := by rw [← List.head?_drop, here]; rfl
  unfold plainLine
  cases known : Instruction.ofCode? cell with
  | none =>
    exact ⟨.word bare (by simp [instructionAt, here, known]) at_a, by simp [ListingLine.size]⟩
  | some i =>
    dsimp only
    split
    next short =>
      exact ⟨.word bare (by simp [instructionAt, here, known, short]) at_a,
        by simp [ListingLine.size]⟩
    next room =>
      refine ⟨.instruction bare (instructionAt_of_drop here known (by omega)), ?_⟩
      simp only [ListingLine.size, List.length_take]
      omega

/-- At every address of a memory there is a line, or the frame of a text whose length is
impossible. -/
theorem lineAt_shows {cell : Int} {rest : List Int} (here : M.drop a = cell :: rest) :
    (∃ line, lineAt a cell rest = .ok line ∧ Shows M a line ∧ a + line.size ≤ M.length) ∨
      ∃ n, Framed M a n ∧ ¬ Possible n ∧ lineAt a cell rest = .error .badLength := by
  have length : a + (rest.length + 1) = M.length := by
    have count := congrArg List.length here
    simp only [List.length_drop, List.length_cons] at count
    omega
  by_cases framed : ∃ n, Framed M a n
  · obtain ⟨n, framed⟩ := framed
    have text := textAt?_framed framed
    rw [here] at text
    by_cases possible : Possible n
    · refine .inl ⟨_, by rw [lineAt, text.1 possible]; rfl, .text framed possible, ?_⟩
      obtain ⟨more, cells⟩ := framed.cells
      have count := congrArg List.length cells
      simp only [List.length_drop, List.length_cons] at count
      simp only [ListingLine.size, List.length_take, List.length_drop]
      omega
    · exact .inr ⟨n, framed, possible, by rw [lineAt, text.2 possible]; rfl⟩
  · have bare : ∀ n, ¬ Framed M a n := not_exists.mp framed
    have text := textAt?_bare bare
    rw [here] at text
    obtain ⟨shows, size⟩ := shows_plainLine here bare
    exact .inl ⟨_, by rw [lineAt, text]; rfl, shows, by omega⟩

/-! ## The lines of a memory -/

theorem linesFrom_covers (low : a ≤ M.length) :
    (∃ lines, linesFrom a (M.drop a) = .ok lines ∧ Covers M a lines M.length) ∨
    ∃ lines b n, Covers M a lines b ∧ Framed M b n ∧ ¬ Possible n ∧
    linesFrom a (M.drop a) = .error .badLength := by
  induction left : M.length - a using Nat.strongRecOn generalizing a with
  | ind left ih =>
    subst left
    cases here : M.drop a with
    | nil =>
      obtain rfl : a = M.length := by
        have count := congrArg List.length here
        simp only [List.length_drop, List.length_nil] at count
        omega
      exact .inl ⟨[], by rw [linesFrom]; rfl, .nil⟩
    | cons cell rest =>
      rcases lineAt_shows here with ⟨line, found, shows, inside⟩ | ⟨n, framed, impossible, fails⟩
      · have positive := line.size_pos
        have behind : rest.drop (line.size - 1) = M.drop (a + line.size) := by
          have size : line.size = line.size - 1 + 1 := by omega
          rw [← List.drop_drop, here, size, List.drop_succ_cons, Nat.add_sub_cancel]
        have step : linesFrom a (cell :: rest) = linesFrom (a + line.size) (M.drop (a + line.size))
            >>= fun lines => .ok ((a, line) :: lines) := by
          rw [linesFrom, found, ← behind]
          rfl
        rcases ih _ (by omega) inside rfl with ⟨lines, ran, covers⟩
          | ⟨lines, b, n, covers, framed, impossible, fails⟩
        · exact .inl ⟨(a, line) :: lines, by rw [step, ran]; rfl, .cons shows inside covers⟩
        · exact .inr ⟨(a, line) :: lines, b, n, .cons shows inside covers, framed, impossible,
            by rw [step, fails]; rfl⟩
      · exact .inr ⟨[], a, n, .nil, framed, impossible, by rw [linesFrom, fails]; rfl⟩

/-- **The lines of a memory cover it**, whatever its length and its cells are: the first one is at
the first instruction, each next one is at the address where the one before it ends, and the last
one ends with the memory. The only other outcome is that lines cover the memory up to the frame of a
text whose length is negative or beyond every block; then the listing ends with this fault. -/
theorem ofMemory_covers (M : List Int) : (∃ lines, ofMemory M = .ok lines ∧
      Covers M Image.codeStart lines (max Image.codeStart M.length)) ∨
    ∃ lines b n, Covers M Image.codeStart lines b ∧ Framed M b n ∧ ¬ Possible n ∧
    ofMemory M = .error .badLength := by
  by_cases low : Image.codeStart ≤ M.length
  · rw [max_eq_right low]
    exact linesFrom_covers low
  · refine .inl ⟨[], ?_, ?_⟩
    · rw [ofMemory, List.drop_eq_nil_of_le (by omega), linesFrom]
      rfl
    · rw [max_eq_left (by omega)]
      exact .nil

/-- A frame with the length minus one. -/
example : ofMemory [0, 0, 0, 0, 9010, 9, 9002, 8, -1] = .error .badLength := by cbv

end Listing

end BilingualC
