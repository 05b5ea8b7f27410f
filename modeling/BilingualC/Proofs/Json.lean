import Mathlib
import BilingualC.Json
import BilingualC.Proofs.Text.Utf8

/-!
# Written values are read back

A value whose numbers are whole and that is not nested too deeply is read back from its bytes
(`Json.read?_write`): strings by the characters that stand for each of theirs, numbers up to the
character behind them, and the items of arrays and objects one after the other.
-/

namespace BilingualC.Json

/-! ## Strings -/

/-- The characters that are written by their code. -/
def codes : List Nat := List.range 0x20 ++ [0x3c, 0x3e, 0x26, 0x2028, 0x2029]

theorem code?_hexPadded {n : Nat} (coded : n ∈ codes) (rest : List Char) :
    (Text.hexPadded 4 n).length = 4 ∧ code? (Text.hexPadded 4 n ++ rest) = some n := by
  have four : (Text.hexPadded 4 n).length = 4 := by revert n; decide
  have alone : code? (Text.hexPadded 4 n) = some n := by revert n; decide
  refine ⟨four, ?_⟩
  rw [← alone, code?, code?, List.take_left' four, List.take_of_length_le four.le]

theorem stringBody_skip (passed rest : List Char) :
    stringBody passed.length (passed ++ rest) = stringBody 0 rest := by
  induction passed with
  | nil => rfl
  | cons c cs ih => rw [List.length_cons, List.cons_append, stringBody, ih]

theorem stringBody_coded {n : Nat} (coded : n ∈ codes) (rest : List Char) :
    stringBody 0 ('\\' :: 'u' :: Text.hexPadded 4 n ++ rest)
      = (stringBody 0 rest).map fun (body, rest) => (Char.ofNat n :: body, rest) := by
  obtain ⟨four, code⟩ := code?_hexPadded coded rest
  have valid : ∀ n ∈ codes, n.isValidChar := by decide
  have letter : escape? ('u' :: (Text.hexPadded 4 n ++ rest)) = some (Char.ofNat n, 5) := by
    simp only [escape?, coded?, code, Option.bind_eq_bind, Option.bind_some]
    rw [if_pos (valid n coded)]
    rfl
  have passed := stringBody_skip ('u' :: Text.hexPadded 4 n) rest
  rw [List.length_cons, four, List.cons_append] at passed
  rw [List.cons_append, List.cons_append, stringBody, if_neg (by decide), if_neg (by decide),
    if_pos (by decide), letter]
  simp only [Option.bind_eq_bind, Option.bind_some, passed, Option.map_eq_bind]
  rfl

/-- What stands for a character is read as that character. -/
theorem stringBody_writeChar (c : Char) (rest : List Char) :
    stringBody 0 (writeChar c ++ rest) = (stringBody 0 rest).map fun (body, rest) =>
    (c :: body, rest) := by
  have escaped (letter : Char) (meaning : escape? (letter :: rest) = some (c, 1)) :
      stringBody 0 (['\\', letter] ++ rest) = (stringBody 0 rest).map fun (body, rest) =>
      (c :: body, rest) := by
    rw [List.cons_append, List.cons_append, List.nil_append, stringBody, if_neg (by decide),
      if_neg (by decide), if_pos (by decide), meaning]
    simp only [Option.bind_eq_bind, Option.bind_some, Option.map_eq_bind, stringBody]
    rfl
  unfold writeChar
  split
  all_goals try exact escaped _ rfl
  next quote slash _ _ _ _ _ =>
    dsimp only
    split
    next coded =>
      have listed : c.toNat ∈ codes := by
        simp only [Bool.or_eq_true, decide_eq_true_eq, beq_iff_eq] at coded
        simp only [codes, List.mem_append, List.mem_range, List.mem_cons,
          List.not_mem_nil, or_false]
        rcases coded with ((((low | rfl) | rfl) | rfl) | line) | paragraph
        · exact .inl low
        · decide
        · decide
        · decide
        · exact .inr (by simp [line])
        · exact .inr (by simp [paragraph])
      have same := stringBody_coded listed rest
      rwa [Char.ofNat_toNat] at same
    next plain =>
      have visible : ¬ c.toNat < 0x20 := fun low => plain (by simp [low])
      rw [List.singleton_append, stringBody, if_neg (by simpa using quote), if_neg visible,
        if_neg (by simpa using slash)]
      simp only [Option.bind_eq_bind, Option.map_eq_bind]
      rfl

theorem stringBody_writeString (s : String) : ∃ inner, (writeString s).toList = '"' :: inner ∧
    ∀ rest, stringBody 0 (inner ++ rest) = some (s.toList, rest) := by
  refine ⟨s.toList.flatMap writeChar ++ ['"'], by rw [writeString, String.toList_ofList],
    fun rest => ?_⟩
  rw [List.append_assoc]
  induction s.toList with
  | nil => rfl
  | cons c cs ih => rw [List.flatMap_cons, List.append_assoc, stringBody_writeChar, ih]; rfl

/-! ## Numbers -/

/-- What can come behind a value: nothing, a comma, or the end of the line. -/
def Stops (rest : List Char) : Prop := ∀ c ∈ rest.head?, c = ',' ∨ c = '\n'

theorem isDigit_toDigits {n : Nat} {c : Char} (mem : c ∈ Nat.toDigits 10 n) : c.isDigit = true :=
  Nat.isDigit_of_mem_toDigits (by decide) (by decide) mem

/-- Only zero begins with the digit zero. -/
theorem toDigits_ten (n : Nat) : n = 0 ∨ ∃ d digits, d ≠ '0' ∧ Nat.toDigits 10 n = d :: digits := by
  induction n using Nat.strongRecOn with
  | ind n ih =>
    rw [Nat.toDigits_eq_if (by decide)]
    split
    next small =>
      rcases Nat.eq_zero_or_pos n with none | some
      · exact .inl none
      · refine .inr ⟨n.digitChar, [], ?_, rfl⟩
        interval_cases n <;> decide
    next large =>
      obtain none | ⟨d, digits, first, split⟩ := ih (n / 10) (by omega)
      · omega
      · exact .inr ⟨d, digits ++ [(n % 10).digitChar], first, by rw [split, List.cons_append]⟩

theorem digits_append {ds rest : List Char} (all : ∀ c ∈ ds, c.isDigit = true) (some : ds ≠ [])
    (stops : Stops rest) : digits (ds ++ rest) = .some (ds, rest) := by
  have here : rest.takeWhile Char.isDigit = [] ∧ rest.dropWhile Char.isDigit = rest := by
    cases rest with
    | nil => exact ⟨rfl, rfl⟩
    | cons c cs =>
      obtain rfl | rfl := stops c rfl
      · exact ⟨rfl, rfl⟩
      · exact ⟨rfl, rfl⟩
  rw [digits, List.takeWhile_append_of_pos all, List.dropWhile_append_of_pos all, here.1, here.2,
    List.append_nil]
  simp [some]

theorem wholePart_toDigits (n : Nat) {rest : List Char} (stops : Stops rest) :
    wholePart (Nat.toDigits 10 n ++ rest) = some (Nat.toDigits 10 n, rest) := by
  obtain rfl | ⟨d, ds, first, split⟩ := toDigits_ten n
  · rfl
  · have some := digits_append (fun c mem => isDigit_toDigits mem)
      (by simp [split] : Nat.toDigits 10 n ≠ []) stops
    rw [split] at some ⊢
    rw [List.cons_append, wholePart, ← List.cons_append, some]
    simpa using first

theorem numberBody_toDigits (n : Nat) {rest : List Char} (stops : Stops rest) :
    numberBody (Nat.toDigits 10 n ++ rest) = some (String.ofList (Nat.toDigits 10 n), rest) ∧
    numberBody ('-' :: (Nat.toDigits 10 n ++ rest)) =
    some (String.ofList ('-' :: Nat.toDigits 10 n), rest) := by
  have whole := wholePart_toDigits n stops
  have unsigned : ((Nat.toDigits 10 n ++ rest).head? == some '-') = false := by
    obtain rfl | ⟨d, ds, -, split⟩ := toDigits_ten n
    · rfl
    · have digit : d.isDigit = true := isDigit_toDigits (by rw [split]; exact List.mem_cons_self)
      rw [split, List.cons_append, List.head?_cons, beq_eq_false_iff_ne]
      rintro ⟨⟩
      exact absurd digit (by decide)
  constructor
  · simp only [numberBody, unsigned, Bool.false_eq_true, if_false, Option.bind_eq_bind, whole,
      Option.bind_some]
    cases rest with
    | nil => simp
    | cons c cs => obtain rfl | rfl := stops c rfl <;> simp
  · simp only [numberBody, List.head?_cons, beq_self_eq_true, if_true, List.tail_cons,
      Option.bind_eq_bind, whole, Option.bind_some]
    cases rest with
    | nil => simp
    | cons c cs => obtain rfl | rfl := stops c rfl <;> simp

/-- The characters of a whole number: an optional sign and digits. -/
theorem toList_toString (n : Int) : ∃ k, (toString n).toList = Nat.toDigits 10 k ∨
    (toString n).toList = '-' :: Nat.toDigits 10 k := by
  cases n with
  | ofNat k =>
    have text : toString (Int.ofNat k) = k.repr := rfl
    exact ⟨k, .inl (by rw [text, Nat.repr_eq_ofList_toDigits, String.toList_ofList])⟩
  | negSucc k =>
    have text : toString (Int.negSucc k) = "-" ++ (k + 1).repr := rfl
    refine ⟨k + 1, .inr ?_⟩
    rw [text, String.toList_append, Nat.repr_eq_ofList_toDigits]
    simp

theorem numberBody_toString (n : Int) {rest : List Char} (stops : Stops rest) :
    numberBody ((toString n).toList ++ rest) = some (toString n, rest) := by
  obtain ⟨k, chars | chars⟩ := toList_toString n
  · rw [chars, (numberBody_toDigits k stops).1, ← chars, String.ofList_toList]
  · rw [chars, List.cons_append, (numberBody_toDigits k stops).2, ← chars, String.ofList_toList]

/-! ## Values -/

-- a value is read by its first character, and its items and members are values again
attribute [local simp] readValue readItems readMembers

/-- A value with whole numbers in which arrays and objects are nested at most so deep. -/
inductive Plain : Nat → Json → Prop
  | null {k : Nat} : Plain k .null
  | boolean {k : Nat} (b : Bool) : Plain k (.boolean b)
  | number {k : Nat} (n : Int) : Plain k (.number (toString n))
  | string {k : Nat} (s : String) : Plain k (.string s)
  | array {k : Nat} {items : List Json} : (∀ item ∈ items, Plain k item) →
      Plain (k + 1) (.array items)
  | object {k : Nat} {members : List (String × Json)} : (∀ m ∈ members, Plain k m.2) →
      Plain (k + 1) (.object members)

theorem skipSpaces_newLine (depth : Nat) (cs : List Char) :
    skipSpaces ((newLine depth).toList ++ cs) = skipSpaces cs := by
  have blank : ∀ c ∈ (newLine depth).toList, isSpace c = true := by
    intro c mem
    simp only [newLine, String.toList_append, String.toList_ofList, List.mem_append,
      List.mem_replicate] at mem
    rcases mem with line | ⟨-, rfl⟩
    · obtain rfl : c = '\n' := by simpa using line
      decide
    · decide
  rw [skipSpaces, skipSpaces, List.dropWhile_append_of_pos blank]

theorem readValue_skip {left nesting : Nat} {cs cs' : List Char}
    (same : skipSpaces cs = skipSpaces cs') :
    readValue left nesting cs = readValue left nesting cs' := by
  cases left with
  | zero => rfl
  | succ left => rw [readValue, readValue, same]

theorem mem_of_isDigit {c : Char} (digit : c.isDigit = true) : c ∈ "-0123456789".toList := by
  have bounds : 48 ≤ c.toNat ∧ c.toNat ≤ 57 := by
    simpa [Char.isDigit, UInt32.le_iff_toNat_le] using digit
  rw [← Char.ofNat_toNat c]
  generalize c.toNat = n at bounds
  obtain ⟨low, high⟩ := bounds
  interval_cases n <;> decide

theorem readValue_number {left nesting : Nat} (n : Int) {rest : List Char} (stops : Stops rest) :
    readValue (left + 1) nesting ((toString n).toList ++ rest) =
    some (.number (toString n), rest) := by
  have body := numberBody_toString n stops
  obtain ⟨c, cs, chars, first⟩ : ∃ c cs, (toString n).toList = c :: cs ∧
    c ∈ "-0123456789".toList := by
    have digit (k : Nat) : ∃ c cs, Nat.toDigits 10 k = c :: cs ∧ c ∈ "-0123456789".toList := by
      obtain ⟨c, cs, split⟩ : ∃ c cs, Nat.toDigits 10 k = c :: cs := by
        obtain rfl | ⟨d, ds, -, split⟩ := toDigits_ten k
        · exact ⟨'0', [], rfl⟩
        · exact ⟨d, ds, split⟩
      exact ⟨c, cs, split, mem_of_isDigit (isDigit_toDigits (n := k) (split ▸ List.mem_cons_self))⟩
    obtain ⟨k, chars | chars⟩ := toList_toString n
    · rw [chars]
      exact digit k
    · exact ⟨'-', _, chars, by decide⟩
  rw [chars, List.cons_append] at body ⊢
  have dispatch : readValue (left + 1) nesting (c :: (cs ++ rest))
      = (numberBody (c :: (cs ++ rest))).map fun read => (.number read.1, read.2) := by
    simp at first
    rcases first with rfl | rfl | rfl | rfl | rfl | rfl | rfl | rfl | rfl | rfl | rfl <;> rfl
  rw [dispatch, body]
  rfl

theorem skipSpaces_close (depth : Nat) {c : Char} (visible : isSpace c = false) (rest : List Char) :
    skipSpaces ((newLine depth).toList ++ c :: rest) = c :: rest := by
  rw [skipSpaces_newLine, skipSpaces, List.dropWhile_cons, if_neg (by simp [visible])]

theorem stops_newLine (depth : Nat) (rest : List Char) :
    Stops ((newLine depth).toList ++ rest) := by
  simp [Stops, newLine]

/-- The value is read back from its text, whatever comes behind it. -/
def ReadsBack (k : Nat) (v : Json) : Prop :=
  ∀ depth left rest, (writeAt depth v).toList.length ≤ left → Stops rest →
    readValue left k ((writeAt depth v).toList ++ rest) = some (v, rest)

theorem readItems_write {k : Nat} {items : List Json} (some : items ≠ [])
    (each : ∀ item ∈ items, ReadsBack k item) (depth close left : Nat) (rest : List Char)
    (room : (",".intercalate (writeItems depth items)).toList.length ≤ left) :
    readItems left k ((",".intercalate (writeItems depth items)).toList ++
      ((newLine close).toList ++ ']' :: rest)) = .some (items, rest) := by
  induction items generalizing left with
  | nil => exact absurd rfl some
  | cons item more ih =>
    have line : 0 < (newLine depth).toList.length := by simp [newLine]
    have first (m : Nat) (tail : List Char)
        (fits : (writeAt depth item).toList.length ≤ m) (stops : Stops tail) :
        readValue m k ((newLine depth).toList ++ ((writeAt depth item).toList ++ tail)) =
        .some (item, tail) :=
      (readValue_skip (skipSpaces_newLine depth _)).trans
        (each item List.mem_cons_self depth m tail fits stops)
    cases more with
    | nil =>
      simp only [writeItems, String.intercalate_singleton, String.toList_append, List.length_append,
        List.append_assoc] at room ⊢
      obtain ⟨m, rfl⟩ : ∃ m, left = m + 1 := ⟨left - 1, by omega⟩
      rw [readItems, first m _ (by omega) (stops_newLine close _)]
      simp only [Option.bind_eq_bind, Option.bind_some, skipSpaces_close close (c := ']') rfl]
      rfl
    | cons next more =>
      have split : (",".intercalate (writeItems depth (item :: next :: more))).toList
          = (newLine depth).toList ++ ((writeAt depth item).toList
            ++ ',' :: (",".intercalate (writeItems depth (next :: more))).toList) := by
        simp [writeItems, String.intercalate_cons_cons]
      have later := ih (by simp) (fun v mem => each v (List.mem_cons_of_mem _ mem))
      rw [split] at room ⊢
      simp only [List.length_append, List.length_cons, List.append_assoc,
        List.cons_append] at room ⊢
      obtain ⟨m, rfl⟩ : ∃ m, left = m + 1 := ⟨left - 1, by omega⟩
      rw [readItems, first m _ (by omega) (by simp [Stops])]
      have comma (cs : List Char) : skipSpaces (',' :: cs) = ',' :: cs := rfl
      simp only [Option.bind_eq_bind, Option.bind_some, comma, later m (by omega)]
      rfl

theorem readMembers_write {k : Nat} {members : List (String × Json)} (some : members ≠ [])
    (each : ∀ m ∈ members, ReadsBack k m.2) (depth close left : Nat) (rest : List Char)
    (room : (",".intercalate (writeMembers depth members)).toList.length ≤ left) :
    readMembers left k ((",".intercalate (writeMembers depth members)).toList ++
      ((newLine close).toList ++ '\x7d' :: rest)) = .some (members, rest) := by
  induction members generalizing left with
  | nil => exact absurd rfl some
  | cons member more ih =>
    obtain ⟨name, v⟩ := member
    have first (m : Nat) (tail : List Char)
        (fits : (writeAt depth v).toList.length ≤ m) (stops : Stops tail) :
        readValue m k (' ' :: ((writeAt depth v).toList ++ tail)) = .some (v, tail) := by
      have space : skipSpaces (' ' :: ((writeAt depth v).toList ++ tail)) =
        skipSpaces ((writeAt depth v).toList ++ tail) :=
        rfl
      rw [readValue_skip space]
      exact each (name, v) List.mem_cons_self depth m tail fits stops
    have quote (cs : List Char) : skipSpaces ('"' :: cs) = '"' :: cs := rfl
    have colon (cs : List Char) : skipSpaces (':' :: cs) = ':' :: cs := rfl
    have comma (cs : List Char) : skipSpaces (',' :: cs) = ',' :: cs := rfl
    obtain ⟨inner, written, body⟩ := stringBody_writeString name
    -- behind the last member comes the end of the object, behind any other one a comma
    cases more with
    | nil =>
      have split : (",".intercalate (writeMembers depth [(name, v)])).toList
          = (newLine depth).toList ++ '"' :: (inner ++ ':' :: ' ' :: (writeAt depth v).toList) := by
        simp [writeMembers, written]
      rw [split] at room ⊢
      simp only [List.length_append, List.length_cons, List.append_assoc,
        List.cons_append] at room ⊢
      obtain ⟨m, rfl⟩ : ∃ m, left = m + 1 := ⟨left - 1, by omega⟩
      rw [readMembers, skipSpaces_newLine, quote]
      simp only [body, Option.bind_eq_bind, Option.bind_some, colon]
      rw [first m _ (by omega) (stops_newLine close _), Option.bind_some]
      simp only [skipSpaces_close close (c := '\x7d') rfl, String.ofList_toList]
      rfl
    | cons next more =>
      have split : (",".intercalate (writeMembers depth ((name, v) :: next :: more))).toList
          = (newLine depth).toList ++ '"' :: (inner ++ ':' :: ' ' :: ((writeAt depth v).toList
            ++ ',' :: (",".intercalate (writeMembers depth (next :: more))).toList)) := by
        simp [writeMembers, String.intercalate_cons_cons, written]
      have later := ih (by simp) (fun v mem => each v (List.mem_cons_of_mem _ mem))
      rw [split] at room ⊢
      simp only [List.length_append, List.length_cons, List.append_assoc,
        List.cons_append] at room ⊢
      obtain ⟨m, rfl⟩ : ∃ m, left = m + 1 := ⟨left - 1, by omega⟩
      rw [readMembers, skipSpaces_newLine, quote]
      simp only [body, Option.bind_eq_bind, Option.bind_some, colon]
      rw [first m _ (by omega) (by simp [Stops]), Option.bind_some]
      simp only [comma, later m (by omega), Option.bind_some, String.ofList_toList]
      rfl

/-- A word that stands for a value is read back. -/
theorem readsBack_word {k : Nat} {v : Json} (word : List Char)
    (written : ∀ depth, (writeAt depth v).toList = word) (some : word ≠ [])
    (known : ∀ m rest, readValue (m + 1) k (word ++ rest) = .some (v, rest)) : ReadsBack k v := by
  intro depth left rest room _
  rw [written] at room ⊢
  have := List.length_pos_of_ne_nil some
  obtain ⟨m, rfl⟩ : ∃ m, left = m + 1 := ⟨left - 1, by omega⟩
  exact known m rest

theorem skipSpaces_idem (cs : List Char) : skipSpaces (skipSpaces cs) = skipSpaces cs := by
  simp only [skipSpaces, List.dropWhile_idempotent]

theorem readItems_skip (left nesting : Nat) (cs : List Char) :
    readItems left nesting (skipSpaces cs) = readItems left nesting cs := by
  cases left with
  | zero => rfl
  | succ left => rw [readItems, readItems, readValue_skip (skipSpaces_idem cs)]

theorem readMembers_skip (left nesting : Nat) (cs : List Char) :
    readMembers left nesting (skipSpaces cs) = readMembers left nesting cs := by
  cases left with
  | zero => rfl
  | succ left => rw [readMembers, readMembers, skipSpaces_idem]

/-- No item begins with the bracket that closes the array. -/
theorem skipSpaces_of_readItems {left nesting : Nat} {cs : List Char} {read : List Json × List Char}
    (items : readItems left nesting cs = some read) (rest : List Char) :
    skipSpaces cs ≠ ']' :: rest := by
  intro closed
  have none : readValue (left - 1) nesting cs = none := by
    cases left - 1 with
    | zero => rfl
    | succ m => rw [readValue, closed]; rfl
  cases left with
  | zero => exact nomatch items
  | succ m =>
    rw [Nat.add_sub_cancel] at none
    rw [readItems, none] at items
    exact nomatch items

/-- No member begins with the brace that closes the object. -/
theorem skipSpaces_of_readMembers {left nesting : Nat} {cs : List Char}
    {read : List (String × Json) × List Char} (members : readMembers left nesting cs = some read)
    (rest : List Char) : skipSpaces cs ≠ '\x7d' :: rest := by
  intro closed
  cases left with
  | zero => exact nomatch members
  | succ m =>
    rw [readMembers, closed] at members
    exact nomatch members

theorem readValue_array {m k : Nat} {cs : List Char} {items : List Json} {rest : List Char}
    (read : readItems m k cs = some (items, rest)) :
    readValue (m + 1) (k + 1) ('[' :: cs) = some (.array items, rest) := by
  have opened : skipSpaces ('[' :: cs) = '[' :: cs := rfl
  rw [readValue, opened]
  simp only [Nat.add_sub_cancel, beq_iff_eq, Nat.add_eq_zero_iff, one_ne_zero, and_false, if_false]
  split
  next tail closed => exact absurd closed (skipSpaces_of_readItems read tail)
  next => rw [readItems_skip, read]; rfl

theorem readValue_object {m k : Nat} {cs : List Char} {members : List (String × Json)}
    {rest : List Char} (read : readMembers m k cs = some (members, rest)) :
    readValue (m + 1) (k + 1) ('\x7b' :: cs) = some (.object members, rest) := by
  have opened : skipSpaces ('\x7b' :: cs) = '\x7b' :: cs := rfl
  rw [readValue, opened]
  simp only [Nat.add_sub_cancel, beq_iff_eq, Nat.add_eq_zero_iff, one_ne_zero, and_false, if_false]
  split
  next tail closed => exact absurd closed (skipSpaces_of_readMembers read tail)
  next => rw [readMembers_skip, read]; rfl

/-- A plain value is read back. -/
theorem Plain.readsBack {k : Nat} {v : Json} (plain : Plain k v) : ReadsBack k v := by
  -- by induction on the value; the reader has a step to spare for each character that was written
  induction plain with
  | null =>
    exact readsBack_word "null".toList (fun depth => by rw [writeAt]) (by simp) fun m rest => rfl
  | boolean b =>
    cases b with
    | false =>
      exact readsBack_word "false".toList (fun depth => by rw [writeAt]; rfl)
        (by simp) fun m rest => rfl
    | true =>
      exact readsBack_word "true".toList (fun depth => by rw [writeAt]; rfl) (by simp) fun m rest =>
        rfl
  | number n =>
    intro depth left rest room stops
    have some : 0 < (toString n).toList.length := by
      obtain ⟨k, chars | chars⟩ := toList_toString n
      · have := Nat.length_toDigits_pos (b := 10) (n := k)
        rwa [chars]
      · rw [chars, List.length_cons]
        exact Nat.succ_pos _
    rw [writeAt] at room ⊢
    obtain ⟨m, rfl⟩ : ∃ m, left = m + 1 := ⟨left - 1, by omega⟩
    exact readValue_number n stops
  | string s =>
    intro depth left rest room _
    obtain ⟨inner, written, body⟩ := stringBody_writeString s
    rw [writeAt, written] at room ⊢
    obtain ⟨m, rfl⟩ : ∃ m, left = m + 1 := ⟨left - 1, by rw [List.length_cons] at room; omega⟩
    have quote : skipSpaces ('"' :: (inner ++ rest)) = '"' :: (inner ++ rest) := rfl
    rw [List.cons_append, readValue, quote]
    simp only [body, Option.bind_eq_bind, Option.bind_some, String.ofList_toList]
    rfl
  | @array k items _ ih =>
    cases items with
    | nil =>
      exact readsBack_word "[]".toList (fun depth => by rw [writeAt]) (by simp) fun m rest => rfl
    | cons item more =>
      intro depth left rest room _
      -- an array that is not empty has its items on lines of their own
      have split : (writeAt depth (.array (item :: more))).toList
          = '[' :: ((",".intercalate (writeItems (depth + 1) (item :: more))).toList
            ++ ((newLine depth).toList ++ [']'])) := by
        simp [writeAt]
      rw [split] at room ⊢
      simp only [List.length_cons, List.length_append] at room
      obtain ⟨m, rfl⟩ : ∃ m, left = m + 1 := ⟨left - 1, by omega⟩
      simp only [List.cons_append, List.append_assoc, List.nil_append]
      exact readValue_array (readItems_write (by simp) ih (depth + 1) depth m rest (by omega))
  | @object k members _ ih =>
    cases members with
    | nil =>
      exact readsBack_word "\x7b\x7d".toList (fun depth => by rw [writeAt]) (by simp) fun m rest =>
        rfl
    | cons member more =>
      intro depth left rest room _
      have split : (writeAt depth (.object (member :: more))).toList
          = '\x7b' :: ((",".intercalate (writeMembers (depth + 1) (member :: more))).toList
            ++ ((newLine depth).toList ++ ['\x7d'])) := by
        simp [writeAt]
      rw [split] at room ⊢
      simp only [List.length_cons, List.length_append] at room
      obtain ⟨m, rfl⟩ : ∃ m, left = m + 1 := ⟨left - 1, by omega⟩
      simp only [List.cons_append, List.append_assoc, List.nil_append]
      exact readValue_object (readMembers_write (by simp) ih (depth + 1) depth m rest (by omega))

/-- **Plain values are read back from their bytes.** -/
theorem read?_write {v : Json} (plain : Plain maxNesting v) :
    read? (Text.bytesOfText v.write) = some v := by
  have whole :=
    plain.readsBack 0 (2 * v.write.toList.length + 2) [] (by rw [write]; omega) (by simp [Stops])
  rw [List.append_nil] at whole
  rw [read?, Text.decodeUtf8_bytesOfText]
  simp only [Option.bind_eq_bind, write] at whole ⊢
  rw [whole]
  rfl

end BilingualC.Json
