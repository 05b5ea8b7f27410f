import Mathlib
import BilingualC.Image.Format

/-!
# Reading images in text form

A reader of the text form takes the numbers of the header and then as many numbers for each table as
the header says. It gives back every image that was written from its bytes, so different images have
different texts (`ImageFormat.text_decodable`).
-/

namespace BilingualC

namespace Image

/-! ## The reader -/

/-- Says whether a character belongs to a number of a line. -/
def isNumeral (c : Char) : Bool := c != ' ' && c != '\n'

/-- The number at the start of some characters, and what comes behind it. -/
def takeNumber (cs : List Char) : Option (Int × List Char) :=
  (String.ofList (cs.takeWhile isNumeral)).toInt?.map (·, cs.dropWhile isNumeral)

/-- So many numbers, each of them behind a blank, and the end of the line. -/
def takeMore : Nat → List Char → Option (List Int × List Char)
  | 0, '\n' :: cs => some ([], cs)
  | n + 1, ' ' :: cs => do
    let (w, cs) ← takeNumber cs
    let (ws, cs) ← takeMore n cs
    return (w :: ws, cs)
  | _, _ => none

/-- A line of so many numbers, and what comes behind it. -/
def takeLine : Nat → List Char → Option (List Int × List Char)
  | 0, cs => takeMore 0 cs
  | n + 1, cs => do
    let (w, cs) ← takeNumber cs
    let (ws, cs) ← takeMore n cs
    return (w :: ws, cs)

/-- Lines of so many numbers each, and what comes behind them. -/
def takeLines : List Nat → List Char → Option (List (List Int) × List Char)
  | [], cs => some ([], cs)
  | n :: counts, cs => do
    let (line, cs) ← takeLine n cs
    let (lines, cs) ← takeLines counts cs
    return (line :: lines, cs)

/-- The image that a text describes. -/
def ofText? (text : String) : Option Image := do
  let cs ← text.toList.dropPrefix? (shebang ++ "\n").toList
  let (header, cs) ← takeLine 7 cs
  let (tables, cs) ← takeLines ((header.take 5).map Int.toNat) cs
  match header, tables, cs with
  | [_, _, _, _, _, maxGlobal, maxThreads],
      [memory, functions, identifiers, representations, types], [] =>
    some ⟨memory, functions, identifiers, representations, types, maxGlobal, maxThreads⟩
  | _, _, _ => none

/-- The image that the bytes of a text describe. -/
def ofTextBytes? (bytes : List UInt8) : Option Image :=
  (String.fromUTF8? ⟨bytes.toArray⟩).bind ofText?

/-! ## Numbers and lines -/

theorem isNumeral_of_mem_repr {w : Int} {c : Char} (mem : c ∈ (toString w).toList) :
    isNumeral c = true := by
  have digit {n : Nat} (mem : c ∈ n.repr.toList) : isNumeral c = true := by
    rw [Nat.repr_eq_ofList_toDigits, String.toList_ofList] at mem
    have isDigit := Nat.isDigit_of_mem_toDigits (by decide) (by decide) mem
    simp only [isNumeral, Bool.and_eq_true, bne_iff_ne]
    constructor <;> rintro rfl <;> exact absurd isDigit (by decide)
  cases w with
  | ofNat n => exact digit mem
  | negSucc n =>
    have split : toString (Int.negSucc n) = "-" ++ (n + 1).repr := rfl
    rw [split, String.toList_append, List.mem_append] at mem
    rcases mem with sign | mem
    · obtain rfl : c = '-' := by simpa using sign
      decide
    · exact digit mem

/-- A number is read back if the characters behind it do not belong to it. -/
theorem takeNumber_append (w : Int) {rest : List Char}
    (stop : ∀ c ∈ rest.head?, isNumeral c = false) :
    takeNumber ((toString w).toList ++ rest) = some (w, rest) := by
  have all : ∀ c ∈ (toString w).toList, isNumeral c = true := fun c mem => isNumeral_of_mem_repr mem
  have here : rest.takeWhile isNumeral = [] ∧ rest.dropWhile isNumeral = rest := by
    cases rest with
    | nil => exact ⟨rfl, rfl⟩
    | cons c cs =>
      have no := stop c rfl
      simp [no]
  rw [takeNumber, List.takeWhile_append_of_pos all, List.dropWhile_append_of_pos all, here.1,
    here.2, List.append_nil, String.ofList_toList]
  exact congrArg (Option.map (·, rest)) (Int.toInt?_repr w)

/-- The characters of numbers of which each stands behind a blank, and of the end of the line. -/
def moreChars (numbers : List Int) : List Char :=
  numbers.flatMap (fun w => ' ' :: (toString w).toList) ++ ['\n']

theorem stops_moreChars (numbers : List Int) (rest : List Char) :
    ∀ c ∈ (moreChars numbers ++ rest).head?, isNumeral c = false := by
  cases numbers with
  | nil => simp [moreChars, isNumeral]
  | cons w ws => simp [moreChars, isNumeral]

theorem takeMore_append (numbers : List Int) (rest : List Char) :
    takeMore numbers.length (moreChars numbers ++ rest) = some (numbers, rest) := by
  induction numbers with
  | nil => rfl
  | cons w ws ih =>
    have split :
        moreChars (w :: ws) ++ rest = ' ' :: ((toString w).toList ++ (moreChars ws ++ rest)) := by
      simp [moreChars]
    rw [split, List.length_cons, takeMore, takeNumber_append w (stops_moreChars ws rest)]
    simp only [Option.bind_eq_bind, Option.bind_some, ih]
    rfl

theorem toList_numberLine (w : Int) (ws : List Int) :
    (numberLine (w :: ws)).toList = (toString w).toList ++ moreChars ws := by
  have blanks (w : Int) (ws : List Int) : (" ".intercalate ((w :: ws).map toString)).toList =
      (toString w).toList ++ ws.flatMap fun w => ' ' :: (toString w).toList := by
    induction ws generalizing w with
    | nil => simp
    | cons v ws ih =>
      have next := ih v
      simp only [List.map_cons] at next ⊢
      rw [String.intercalate_cons_cons, String.toList_append, String.toList_append, next]
      simp
  rw [numberLine, String.toList_append, blanks]
  simp [moreChars]

theorem takeLine_append (numbers : List Int) (rest : List Char) :
    takeLine numbers.length ((numberLine numbers).toList ++ rest) = some (numbers, rest) := by
  cases numbers with
  | nil => rfl
  | cons w ws =>
    rw [toList_numberLine, List.append_assoc, List.length_cons, takeLine,
      takeNumber_append w (stops_moreChars ws rest)]
    simp only [Option.bind_eq_bind, Option.bind_some, takeMore_append]
    rfl

theorem takeLines_append (tables : List (List Int)) (rest : List Char) :
    takeLines (tables.map List.length) ((String.join (tables.map numberLine)).toList ++ rest) =
    some (tables, rest) := by
  induction tables with
  | nil => simp [takeLines]
  | cons table tables ih =>
    rw [List.map_cons, List.map_cons, String.join_cons, String.toList_append, List.append_assoc,
      takeLines, takeLine_append]
    simp only [Option.bind_eq_bind, Option.bind_some, ih]
    rfl

/-! ## Images -/

/-- The reader gives back the image that a text was written for. -/
theorem ofText?_toText (img : Image) : ofText? img.toText = some img := by
  have split : img.toText.toList = (shebang ++ "\n").toList ++ ((numberLine img.header).toList ++
      ((String.join (img.tables.map numberLine)).toList ++ [])) := by
    rw [toText, String.toList_append, String.toList_append, List.append_nil, List.append_assoc]
  have counts : (img.header.take 5).map Int.toNat = img.tables.map List.length := by
    simp [header, tables]
  have first : takeLine 7 ((numberLine img.header).toList ++ _) = _ := takeLine_append img.header
    ((String.join (img.tables.map numberLine)).toList ++ [])
  have opened (cs : List Char) :
    ((shebang ++ "\n").toList ++ cs).dropPrefix? (shebang ++ "\n").toList = some cs :=
    List.dropPrefix?_eq_some_iff.mpr ⟨_, rfl, beq_self_eq_true _⟩
  rw [ofText?, split, opened]
  simp only [Option.bind_eq_bind, Option.bind_some, first, counts, takeLines_append]
  rfl

/-! ## Bytes -/

theorem toList_loop (bytes : ByteArray) (i : Nat) (acc : List UInt8) :
    ByteArray.toList.loop bytes i acc = acc.reverse ++ bytes.data.toList.drop i := by
  induction left : bytes.size - i generalizing i acc with
  | zero =>
    have past : bytes.data.toList.length ≤ i := by
      rw [Array.length_toList]
      exact Nat.le_of_sub_eq_zero left
    rw [ByteArray.toList.loop, if_neg (by omega), List.drop_eq_nil_of_le past, List.append_nil]
  | succ n ih =>
    have inside : i < bytes.size := by omega
    have here : i < bytes.data.toList.length := by simpa using inside
    have same : bytes.get! i = bytes.data.toList[i] := by simp [ByteArray.get!, inside]
    rw [ByteArray.toList.loop, if_pos inside, ih _ _ (by omega), List.drop_eq_getElem_cons here,
      same, List.reverse_cons, List.append_assoc, List.singleton_append]

/-- The bytes of a text make up the text again. -/
theorem fromUTF8?_bytesOfText (text : String) :
    String.fromUTF8? ⟨(Text.bytesOfText text).toArray⟩ = some text := by
  have bytes : (⟨(Text.bytesOfText text).toArray⟩ : ByteArray) = text.toUTF8 := by
    rw [Text.bytesOfText, ByteArray.toList, toList_loop]
    rfl
  rw [bytes]
  exact dif_pos text.isValidUTF8

theorem ofTextBytes?_write (img : Image) :
    ofTextBytes? (ImageFormat.text.write img) = some img := by
  rw [ofTextBytes?, ImageFormat.write, fromUTF8?_bytesOfText, Option.bind_some, ofText?_toText]

end Image

/-- **Text images are uniquely decodable.** A reader that takes the numbers of the header and then
as many numbers for each table gives back every image from its bytes, so images with the same bytes
are equal. -/
theorem ImageFormat.text_decodable :
    (∀ img : Image, Image.ofTextBytes? (ImageFormat.text.write img) = some img) ∧
      Function.Injective ImageFormat.text.write := by
  refine ⟨Image.ofTextBytes?_write, fun a b same => ?_⟩
  have both := congrArg Image.ofTextBytes? same
  rw [Image.ofTextBytes?_write, Image.ofTextBytes?_write] at both
  exact Option.some.inj both

end BilingualC
