import Mathlib
import BilingualC.Image.Format

/-!
# Reading images in binary form

Writing an image puts one item behind the other, each with a head in its shortest form. What the
reader makes of the bytes of an item does not depend on what comes behind them (`Cbor.Reads`), so
the items of a table and the fields of an image are read one by one. The reader takes arrays of at
most `Cbor.maxItems` items: it gives back the images whose tables are not longer than that, and
refuses all others (`Image.ofCbor?_toCbor`).
-/

namespace BilingualC

/-- Says that an integer is a word. -/
def IsWord (w : Int) : Prop := -9223372036854775808 ≤ w ∧ w < 9223372036854775808

instance (w : Int) : Decidable (IsWord w) := inferInstanceAs (Decidable (_ ∧ _))

namespace Cbor

/-! ## Heads -/

theorem length_bigEndian (width n : Nat) : (bigEndian width n).length = width := by
  induction width with
  | zero => rfl
  | succ width ih => rw [bigEndian, List.length_cons, ih]

theorem foldl_bigEndian (width n start : Nat) :
    (bigEndian width n).foldl (fun n b => n * 256 + b.toNat) start = start * 256 ^ width + n %
    256 ^ width := by
  induction width generalizing start with
  | zero => simp [bigEndian, Nat.mod_one]
  | succ width ih =>
    have byte : (UInt8.ofNat (n >>> (8 * width))).toNat = n / 256 ^ width % 256 := by
      rw [UInt8.toNat_ofNat', Nat.shiftRight_eq_div_pow, pow_mul]
      rfl
    have digits :
      n % 256 ^ (width + 1) = n / 256 ^ width % 256 * 256 ^ width + n % 256 ^ width := by
      rw [pow_succ, Nat.mod_mul]
      ring
    rw [bigEndian, List.foldl_cons, ih, byte, digits]
    ring

theorem ofBigEndian_bigEndian {width n : Nat} (small : n < 256 ^ width) :
    ofBigEndian (bigEndian width n) = n := by
  rw [ofBigEndian, foldl_bigEndian, Nat.mod_eq_of_lt small, Nat.zero_mul, Nat.zero_add]

theorem takeBytes_append (front rest : List UInt8) :
    takeBytes front.length (front ++ rest) = some (front, rest) := by
  simp [takeBytes]

/-- A first byte that holds the argument itself. -/
theorem readHead_direct {b : UInt8} (rest : List UInt8) (low : b.toNat % 32 < 24) :
    readHead (b :: rest) = some (b.toNat / 32, b.toNat % 32, some (b.toNat % 32), rest) := by
  simp [readHead, low]

/-- A first byte behind which the argument stands in one, two, four or eight bytes. -/
theorem readHead_sized {b : UInt8} {bytes : List UInt8}
    (rest : List UInt8) (notSimple : b.toNat / 32 ≠ 7)
    (info : b.toNat % 32 = 24 ∧ bytes.length = 1 ∨ b.toNat % 32 = 25 ∧ bytes.length = 2 ∨
      b.toNat % 32 = 26 ∧ bytes.length = 4 ∨ b.toNat % 32 = 27 ∧ bytes.length = 8) : readHead
    (b :: (bytes ++ rest)) = some (b.toNat / 32, b.toNat % 32, some (ofBigEndian bytes), rest) := by
  have taken := takeBytes_append bytes rest
  rcases info with ⟨low, width⟩ | ⟨low, width⟩ | ⟨low, width⟩ | ⟨low, width⟩ <;>
    · rw [width] at taken
      simp [readHead, low, taken, notSimple]

/-- A head is read back; its argument fits in eight bytes. -/
theorem readHead_head {major n : Nat} (rest : List UInt8)
    (known : major < 6) (small : n < 18446744073709551616) :
    ∃ info, readHead (head major n ++ rest) = some (major, info, some n, rest) := by
  have start (info : Nat) (low : info < 32) : (UInt8.ofNat (major * 32 + info)).toNat / 32 = major ∧
      (UInt8.ofNat (major * 32 + info)).toNat % 32 = info := by
    rw [UInt8.toNat_ofNat', Nat.mod_eq_of_lt (by omega)]
    omega
  have sized (info width : Nat) (fits : n < 256 ^ width) (widths : info = 24 ∧ width = 1 ∨
      info = 25 ∧ width = 2 ∨ info = 26 ∧ width = 4 ∨ info = 27 ∧ width = 8) :
      readHead (UInt8.ofNat (major * 32 + info) :: (bigEndian width n ++ rest)) =
      some (major, info, some n, rest) := by
    obtain ⟨front, low⟩ := start info (by omega)
    rw [readHead_sized rest (by omega) (by rwa [low, length_bigEndian]), front, low,
      ofBigEndian_bigEndian fits]
  unfold head
  split
  next direct =>
    obtain ⟨front, low⟩ := start n (by omega)
    have read := readHead_direct (b := UInt8.ofNat (major * 32 + n)) rest (by omega)
    rw [front, low] at read
    exact ⟨n, read⟩
  split
  next => exact ⟨24, sized 24 1 (by omega) (by omega)⟩
  split
  next => exact ⟨25, sized 25 2 (by omega) (by omega)⟩
  split
  next => exact ⟨26, sized 26 4 (by omega) (by omega)⟩
  next => exact ⟨27, sized 27 8 (by omega) (by omega)⟩

/-! ## Items -/

/-- What the reader makes of some bytes, whatever comes behind them: an item, or nothing if it
refuses them. It needs more than so much fuel and so deep a nesting. -/
def Reads (bytes : List UInt8) (fuel depth : Nat) (item : Option Cbor) : Prop :=
  ∀ left nesting rest, fuel < left → depth ≤ nesting →
    readItem left nesting (bytes ++ rest) = item.map (·, rest)

theorem reads_unsigned {n : Nat} (small : n < 18446744073709551616) :
    Reads (head 0 n) 0 0 (some (.unsigned n)) := by
  intro left nesting rest enough _
  obtain ⟨left, rfl⟩ : ∃ k, left = k + 1 := ⟨left - 1, by omega⟩
  obtain ⟨info, read⟩ := readHead_head rest (by omega : 0 < 6) small
  simp [readItem, read]

theorem reads_negative {n : Nat} (small : n < 18446744073709551616) :
    Reads (head 1 n) 0 0 (some (.negative n)) := by
  intro left nesting rest enough _
  obtain ⟨left, rfl⟩ : ∃ k, left = k + 1 := ⟨left - 1, by omega⟩
  obtain ⟨info, read⟩ := readHead_head rest (by omega : 1 < 6) small
  simp [readItem, read]

/-- The item that a word is written as. -/
def ofWord (w : Int) : Cbor := if w < 0 then .negative (-1 - w).toNat else .unsigned w.toNat

theorem reads_word {w : Int} (word : IsWord w) : Reads (encodeWord w) 0 0 (some (ofWord w)) := by
  obtain ⟨low, high⟩ := word
  unfold encodeWord ofWord
  split
  next => exact reads_negative (by omega)
  next => exact reads_unsigned (by omega)

/-- Items that stand one behind the other are read one by one; one that is refused spoils all. -/
theorem readItems_of_reads {parts : List (List UInt8 × Option Cbor)}
    {fuel depth : Nat} (left nesting : Nat) (rest : List UInt8)
    (reads : ∀ part ∈ parts, Reads part.1 fuel depth part.2) (enough : fuel + parts.length < left)
    (nested : depth ≤ nesting) :
    readItems left nesting (some parts.length) (parts.flatMap Prod.fst ++ rest) =
    (parts.mapM Prod.snd).map (·, rest) := by
  induction parts generalizing left with
  | nil =>
    obtain ⟨left, rfl⟩ : ∃ k, left = k + 1 := ⟨left - 1, by omega⟩
    simp [readItems]
  | cons part parts ih =>
    rw [List.length_cons] at enough
    obtain ⟨left, rfl⟩ : ∃ k, left = k + 1 := ⟨left - 1, by omega⟩
    have first :=
      reads part List.mem_cons_self left nesting (parts.flatMap Prod.fst ++ rest) (by omega) nested
    have later := ih left (fun p mem => reads p (List.mem_cons_of_mem part mem)) (by omega)
    rw [List.length_cons, List.flatMap_cons, List.append_assoc, readItems, first, List.mapM_cons]
    cases part.2 with
    | none => rfl
    | some item =>
      simp only [Option.map_some, Option.bind_eq_bind, Option.bind_some, later]
      cases parts.mapM Prod.snd <;> rfl

/-- Parts of which one is refused cannot be read together. -/
theorem mapM_refused {parts : List (List UInt8 × Option Cbor)} {bytes : List UInt8}
    (mem : (bytes, none) ∈ parts) : parts.mapM Prod.snd = none := by
  induction parts with
  | nil => cases mem
  | cons part parts ih =>
    rw [List.mapM_cons]
    rcases List.mem_cons.mp mem with rfl | later
    · rfl
    · rw [ih later]
      cases part.2 <;> rfl

/-! ## Tables -/

/-- The item that a table is written as; a table that is too long cannot be read. -/
def ofTable (table : List Int) : Option Cbor :=
  if table.isEmpty then some (.simple 22)
  else if table.length ≤ maxItems then some (.array (table.map ofWord)) else none

theorem reads_table {table : List Int} (words : ∀ w ∈ table, IsWord w)
    (short : table.length < 18446744073709551616) :
    Reads (encodeTable table) (table.length + 1) 1 (ofTable table) := by
  intro left nesting rest enough nested
  obtain ⟨left, rfl⟩ : ∃ k, left = k + 1 := ⟨left - 1, by omega⟩
  unfold encodeTable ofTable
  split
  next => simp [readItem, readHead]
  next =>
    have read : ∀ part ∈ table.map fun w => (encodeWord w, some (ofWord w)),
      Reads part.1 0 0 part.2 := by
      intro part mem
      obtain ⟨w, inside, rfl⟩ := List.mem_map.mp mem
      exact reads_word (words w inside)
    have items :=
      readItems_of_reads left (nesting - 1) rest read (by simpa using by omega) (by omega)
    have values : table.mapM (fun w => some (ofWord w)) = some (table.map ofWord) :=
      (List.mapM_pure (m := Option) (l := table) (f := ofWord) :)
    rw [List.length_map, List.flatMap_map, List.mapM_map, Function.comp_def, values] at items
    obtain ⟨info, read⟩ := readHead_head (table.flatMap encodeWord ++ rest) (by omega : 4 < 6) short
    have inner : (nesting == 0) = false := by simpa using by omega
    rw [List.append_assoc, readItem, read]
    simp only [Option.bind_eq_bind, Option.bind_some, inner, Bool.false_eq_true, if_false, items,
      Option.map_some]
    by_cases long : maxItems < table.length
    · simp [long]
    · simp [long]

/-! ## Fields -/

theorem word?_of_isWord {w : Int} (word : IsWord w) : word? w = some w := by
  have high : w ≤ 9223372036854775807 := by
    have := word.2
    omega
  simp [word?, word.1, high]

theorem toWord_ofWord {w : Int} (word : IsWord w) (old : Int) : toWord old (ofWord w) = some w := by
  unfold ofWord
  split
  next negative =>
    have value : -1 - ((-1 - w).toNat : Int) = w := by omega
    rw [toWord, value, word?_of_isWord word]
  next =>
    have value : (w.toNat : Int) = w := by omega
    rw [toWord, value, word?_of_isWord word]

theorem mapM_toWord {table : List Int} (words : ∀ w ∈ table, IsWord w) :
    (table.map ofWord).mapM (toWord 0) = some table := by
  induction table with
  | nil => rfl
  | cons w table ih =>
    have later := ih fun v mem => words v (List.mem_cons_of_mem w mem)
    rw [List.map_cons, List.mapM_cons, toWord_ofWord (words w List.mem_cons_self), later]
    rfl

/-- A table that is not too long is written as an item that stands for it. -/
theorem ofTable_short {table : List Int}
    (words : ∀ w ∈ table, IsWord w) (short : table.length ≤ maxItems) :
    ∃ item, ofTable table = some item ∧ toTable item = some table := by
  cases table with
  | nil => exact ⟨.simple 22, rfl, rfl⟩
  | cons w table => exact ⟨.array ((w :: table).map ofWord), if_pos short, mapM_toWord words⟩

theorem ofTable_long {table : List Int} (long : maxItems < table.length) :
    ofTable table = none := by
  have some : table.isEmpty = false := by
    cases table with
    | nil => exact absurd long (Nat.not_lt_zero _)
    | cons => rfl
  rw [ofTable, some, if_neg Bool.false_ne_true, if_neg (Nat.not_le.mpr long)]

end Cbor

namespace Image

open Cbor

/-- The tables and the numbers of an image hold words, and the length of a table is one as well. -/
structure WordSized (img : Image) : Prop where
  words : ∀ table ∈ img.tables, ∀ w ∈ table, IsWord w
  lengths : ∀ table ∈ img.tables, IsWord table.length
  maxGlobal : IsWord img.maxGlobal
  maxThreads : IsWord img.maxThreads

/-- The keys and the fields of an image in the order in which they are written: their bytes, and the
items that are read from them. -/
def entries (img : Image) : List (List UInt8 × Option Cbor) :=
  [(head 0 1, some (.unsigned 1)), (encodeTable img.memory, ofTable img.memory),
    (head 0 2, some (.unsigned 2)), (encodeTable img.functions, ofTable img.functions),
    (head 0 3, some (.unsigned 3)), (encodeTable img.identifiers, ofTable img.identifiers),
    (head 0 4, some (.unsigned 4)), (encodeTable img.representations, ofTable img.representations),
    (head 0 5, some (.unsigned 5)), (encodeTable img.types, ofTable img.types),
    (head 0 6, some (.unsigned 6)), (encodeWord img.maxGlobal, some (ofWord img.maxGlobal)),
    (head 0 7, some (.unsigned 7)), (encodeWord img.maxThreads, some (ofWord img.maxThreads))]

theorem toCbor_eq (img : Image) :
    img.toCbor = head 5 7 ++ (img.entries.flatMap Prod.fst ++ []) := by
  simp [toCbor, entries]

theorem length_head (major n : Nat) : 1 ≤ (head major n).length := by
  unfold head
  split_ifs <;> simp

theorem length_encodeWord (w : Int) : 1 ≤ (encodeWord w).length := by
  unfold encodeWord
  split <;> exact length_head _ _

/-- A table takes more bytes than it has cells. -/
theorem length_encodeTable (table : List Int) : table.length < (encodeTable table).length := by
  have cells : table.length ≤ (table.flatMap encodeWord).length := by
    induction table with
    | nil => simp
    | cons w table ih =>
      have cell := length_encodeWord w
      simp only [List.flatMap_cons, List.length_append, List.length_cons]
      omega
  have front := length_head 4 table.length
  cases table with
  | nil => exact Nat.one_pos
  | cons w table =>
    rw [encodeTable, List.isEmpty_cons, if_neg Bool.false_ne_true, List.length_append]
    omega

theorem length_toCbor (img : Image) :
    img.toCbor.length = 1 + (img.entries.flatMap Prod.fst).length := by
  rw [toCbor_eq, List.append_nil, List.length_append]
  rfl

theorem reads_entries {img : Image} (sized : img.WordSized) {part : List UInt8 × Option Cbor}
    (mem : part ∈ img.entries) : Reads part.1 img.toCbor.length 1 part.2 := by
  have key {n : Nat} (small : n < 8) : Reads (head 0 n) img.toCbor.length 1 (some (.unsigned n)) :=
    fun left nesting rest _ _ => reads_unsigned (by omega) left nesting rest (by omega) (by omega)
  have number {w : Int} (word : IsWord w) :
    Reads (encodeWord w) img.toCbor.length 1 (some (ofWord w)) :=
    fun left nesting rest _ _ => reads_word word left nesting rest (by omega) (by omega)
  have table {t : List Int} (known : t ∈ img.tables) (inside : (encodeTable t, ofTable t) ∈
      img.entries) : Reads (encodeTable t) img.toCbor.length 1 (ofTable t) := by
    have short := (sized.lengths t known).2
    have cells := length_encodeTable t
    have part : (encodeTable t).length ≤ (img.entries.flatMap Prod.fst).length :=
      (List.sublist_flatten_of_mem (List.mem_map_of_mem (f := Prod.fst) inside)).length_le
    have all := length_toCbor img
    exact fun left nesting rest _ deep =>
      reads_table (sized.words t known) (by omega) left nesting rest (by omega) deep
  have inside := mem
  simp only [entries, List.mem_cons, List.not_mem_nil, or_false] at mem
  rcases mem with rfl | rfl | rfl | rfl | rfl | rfl | rfl | rfl | rfl | rfl | rfl | rfl | rfl | rfl
  · exact key (n := 1) (by omega)
  · exact table (by simp [tables]) inside
  · exact key (n := 2) (by omega)
  · exact table (by simp [tables]) inside
  · exact key (n := 3) (by omega)
  · exact table (by simp [tables]) inside
  · exact key (n := 4) (by omega)
  · exact table (by simp [tables]) inside
  · exact key (n := 5) (by omega)
  · exact table (by simp [tables]) inside
  · exact key (n := 6) (by omega)
  · exact number sized.maxGlobal
  · exact key (n := 7) (by omega)
  · exact number sized.maxThreads

/-- The item that the bytes of an image are, if all its fields can be read. -/
theorem read_toCbor {img : Image} (sized : img.WordSized) :
    read img.toCbor = (img.entries.mapM Prod.snd).bind fun items =>
      (pairs items).bind fun fields => if maxItems < fields.length then none else some
          (.map fields) := by
  obtain ⟨info, opened⟩ :
    ∃ info, readHead img.toCbor = some (5, info, some 7, img.entries.flatMap Prod.fst ++ []) := by
    rw [toCbor_eq]
    exact readHead_head _ (by omega) (by omega)
  have long : 14 ≤ (img.entries.flatMap Prod.fst).length := by
    have key := length_head 0
    have table := length_encodeTable
    simp only [entries, List.flatMap_cons, List.flatMap_nil, List.length_append]
    have first := key 1
    have := key 2
    have := key 3
    have := key 4
    have := key 5
    have := key 6
    have := key 7
    have := table img.memory
    have := table img.functions
    have := table img.identifiers
    have := table img.representations
    have := table img.types
    have := length_encodeWord img.maxGlobal
    have := length_encodeWord img.maxThreads
    omega
  have all := length_toCbor img
  have items := readItems_of_reads (2 * img.toCbor.length + 1) 31 [] (fun part mem =>
    reads_entries sized mem) (by simp [entries]; omega) (by omega)
  have count : img.entries.length = 2 * 7 := rfl
  rw [count] at items
  rw [Cbor.read, readItem, opened]
  simp only [maxNesting, Option.bind_eq_bind, Option.bind_some, Option.map_some, items]
  cases img.entries.mapM Prod.snd with
  | none => rfl
  | some items =>
    cases paired : pairs items with
    | none => simp [paired]
    | some fields => by_cases many : maxItems < fields.length <;> simp [paired, many]

/-- **Binary images can be read back, unless a table is too long.** The reader gives back every
image of which no table has more than `Cbor.maxItems` cells from the bytes that were written for it,
and refuses all other images. -/
theorem ofCbor?_toCbor (img : Image) (sized : img.WordSized) : ofCbor? img.toCbor =
    if ∀ table ∈ img.tables, table.length ≤ maxItems then some img else none := by
  rw [ofCbor?, read_toCbor sized]
  split
  next short =>
    have item (table : List Int) (known : table ∈ img.tables) :=
      ofTable_short (sized.words table known) (short table known)
    obtain ⟨memory, memoryItem, memoryRead⟩ := item img.memory (by simp [tables])
    obtain ⟨functions, functionsItem, functionsRead⟩ := item img.functions (by simp [tables])
    obtain ⟨identifiers, identifiersItem, identifiersRead⟩ :=
      item img.identifiers (by simp [tables])
    obtain ⟨spellings, spellingsItem, spellingsRead⟩ := item img.representations (by simp [tables])
    obtain ⟨types, typesItem, typesRead⟩ := item img.types (by simp [tables])
    simp [entries, memoryItem, functionsItem, identifiersItem, spellingsItem, typesItem, pairs,
      maxItems, toImage, setFields, setField, keyNumber, memoryRead, functionsRead, identifiersRead,
      spellingsRead, typesRead, toWord_ofWord sized.maxGlobal, toWord_ofWord sized.maxThreads]
  next long =>
    obtain ⟨table, known, many⟩ : ∃ table ∈ img.tables, maxItems < table.length := by
      simpa using long
    have refused : (encodeTable table, none) ∈ img.entries := by
      rw [← ofTable_long many]
      simp only [tables, List.mem_cons, List.not_mem_nil, or_false] at known
      rcases known with rfl | rfl | rfl | rfl | rfl <;> simp [entries]
    rw [mapM_refused refused]
    rfl

/-- An image with the words at which the forms of a head change. -/
def boundary : Image :=
  ⟨[-9223372036854775808, -257, -256, -25, -24, -1, 0, 23, 24, 255, 256, 65535, 65536, 4294967295,
    4294967296, 9223372036854775807], [4], [], [0], [-4294967297], 9223372036854775807,
    -9223372036854775808⟩

theorem ofCbor?_toCbor_boundary : ofCbor? boundary.toCbor = some boundary := by
  have sized : boundary.WordSized := ⟨by decide, by decide, by decide, by decide⟩
  exact (ofCbor?_toCbor boundary sized).trans (if_pos (by decide))

end Image

end BilingualC
