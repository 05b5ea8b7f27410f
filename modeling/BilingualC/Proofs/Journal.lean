import Mathlib
import BilingualC.Proofs.Total.Steps

/-!
# Places in the source files

The files of a journal lie one after the other, with one free offset behind each of them. So an
offset inside a file or at its end belongs to that file only, and no two offsets of a file are shown
as the same line and column. A finding is printed with the line that its place is in; the marks
under it begin below the place and stay on the line.

Main result: `Journal.Kept.places_shown`, for every journal that comes of an empty one.
-/

namespace BilingualC

/-! ## Lines and columns -/

/-- The line and the column behind some characters. -/
def placeBehind (cs : List Char) : Nat × Nat :=
  (1 + cs.count '\n', 1 + (cs.reverse.takeWhile (· != '\n')).length)

theorem foldl_advancePosition (cs : List Char) :
    cs.foldl advancePosition (1, 1) = placeBehind cs := by
  induction cs using List.reverseRecOn with
  | nil => rfl
  | append_singleton cs c ih =>
    rw [List.foldl_append, List.foldl_cons, List.foldl_nil, ih]
    by_cases newline : c = '\n'
    · subst newline
      simp [advancePosition, placeBehind, Nat.add_assoc]
    · simp [advancePosition, placeBehind, newline, Nat.add_assoc]

/-- Characters behind others lead to another line, or to a later column of the same one. -/
theorem placeBehind_append {cs ds : List Char} (more : ds ≠ []) :
    placeBehind (cs ++ ds) ≠ placeBehind cs := by
  intro same
  obtain ⟨line, column⟩ := Prod.mk.inj same
  by_cases newline : '\n' ∈ ds
  · have counted := List.count_pos_iff.mpr newline
    rw [List.count_append] at line
    omega
  · have plain : ∀ c ∈ ds.reverse, (c != '\n') = true := by
      intro c mem
      simp only [bne_iff_ne, ne_eq]
      rintro rfl
      exact newline (List.mem_reverse.mp mem)
    have length := List.length_pos_iff.mpr more
    rw [List.reverse_append, List.takeWhile_append_of_pos plain, List.length_append,
      List.length_reverse] at column
    omega

theorem placeBehind_take_injective {cs : List Char} {k l : Nat}
    (inside : k ≤ cs.length) (inside' : l ≤ cs.length)
    (same : placeBehind (cs.take k) = placeBehind (cs.take l)) : k = l := by
  have later {k l : Nat} (less : k < l) (high : l ≤ cs.length) :
    placeBehind (cs.take l) ≠ placeBehind (cs.take k) := by
    have split : cs.take l = cs.take k ++ (cs.take l).drop k := by
      conv_lhs => rw [← List.take_append_drop k (cs.take l)]
      rw [List.take_take, Nat.min_eq_left less.le]
    rw [split]
    refine placeBehind_append fun none => ?_
    have length := congrArg List.length none
    rw [List.length_drop, List.length_take, List.length_nil] at length
    omega
  rcases Nat.lt_trichotomy k l with less | same' | more
  · exact absurd same.symm (later less inside')
  · exact same'
  · exact absurd same (later more inside)

/-! ## Files one after the other -/

/-- How many offsets some files take; each takes one more than it has characters. -/
def room (files : List SourceFile) : Nat := (files.map fun file => file.content.size + 1).sum

/-- Files that lie one after the other from the first offset on. -/
def Laid (files : List SourceFile) : Prop :=
  ∀ i file, files[i]? = some file → file.base = room (files.take i)

theorem room_append (files more : List SourceFile) :
    room (files ++ more) = room files + room more := by
  rw [room, List.map_append, List.sum_append, room, room]

theorem room_take_succ {files : List SourceFile} {i : Nat}
    {file : SourceFile} (here : files[i]? = some file) :
    room (files.take (i + 1)) = room (files.take i) + (file.content.size + 1) := by
  rw [List.take_add_one, here, Option.toList_some, room_append]
  rfl

theorem room_take_le {files : List SourceFile} {i k : Nat} (le : i ≤ k) :
    room (files.take i) ≤ room (files.take k) := by
  have split : files.take k = files.take i ++ (files.take k).drop i := by
    conv_lhs => rw [← List.take_append_drop i (files.take k)]
    rw [List.take_take, Nat.min_eq_left le]
  rw [split, room_append]
  exact Nat.le_add_right _ _

namespace Laid

variable {files : List SourceFile} {i k : Nat} {file other : SourceFile}

/-- A later file starts behind the end of an earlier one. -/
theorem behind (laid : Laid files) (less : i < k) (here : files[i]? = some file)
    (there : files[k]? = some other) : file.base + file.content.size < other.base := by
  have first := laid i file here
  have second := laid k other there
  have between : room (files.take (i + 1)) ≤ room (files.take k) :=
    room_take_le (Nat.succ_le_of_lt less)
  rw [room_take_succ here] at between
  omega

theorem first (laid : Laid files) (inhabited : files ≠ []) : ∃ file, files[0]? = some file ∧
    file.base = 0 := by
  cases files with
  | nil => exact absurd rfl inhabited
  | cons head tail => exact ⟨head, rfl, laid 0 head rfl⟩

theorem push (laid : Laid files) (name : String) (content : Array Char) :
    Laid (files ++ [⟨name, content, room files⟩]) := by
  intro i file here
  rcases Nat.lt_trichotomy i files.length with less | same | more
  · rw [List.getElem?_append_left less] at here
    rw [List.take_append_of_le_length less.le]
    exact laid i file here
  · subst same
    rw [List.getElem?_append_right (le_refl _), Nat.sub_self] at here
    cases here
    rw [List.take_left]
  · rw [List.getElem?_eq_none (by simp; omega)] at here
    cases here

end Laid

/-! ## The file of an offset -/

section Files

variable {files : Array SourceFile} {i : Nat} {file : SourceFile} {offset : Int}

/-- The last file that starts at or before an offset is the one that is found. -/
theorem fileAt?_eq_some (laid : Laid files.toList)
    (here : files[i]? = some file) (low : (file.base : Int) ≤ offset)
    (high : ∀ other, files[i + 1]? = some other → offset < other.base) :
    fileAt? files offset = some file := by
  rw [← Array.getElem?_toList] at here
  obtain ⟨inside, rfl⟩ := List.getElem?_eq_some_iff.mp here
  have split : files.toList.reverse =
      (files.toList.drop (i + 1)).reverse ++ files.toList[i] :: (files.toList.take i).reverse := by
    conv_lhs => rw [← List.take_append_drop i files.toList, List.drop_eq_getElem_cons inside]
    simp
  have later : ∀ other ∈ (files.toList.drop (i + 1)).reverse,
    ¬ decide ((other.base : Int) ≤ offset) = true := by
    intro other mem
    obtain ⟨k, found⟩ := List.mem_iff_getElem?.mp (List.mem_reverse.mp mem)
    rw [List.getElem?_drop] at found
    simp only [decide_eq_true_eq, not_le]
    obtain ⟨next, isNext⟩ : ∃ next, files.toList[i + 1]? = some next := by
      obtain ⟨within, -⟩ := List.getElem?_eq_some_iff.mp found
      exact ⟨_, List.getElem?_eq_getElem (by omega)⟩
    have bound := high next (Array.getElem?_toList ▸ isNext)
    cases k with
    | zero =>
      rw [isNext] at found
      exact Option.some.inj found ▸ bound
    | succ k =>
      have := laid.behind (show i + 1 < i + 1 + (k + 1) by omega) isNext found
      omega
  rw [fileAt?, split, List.find?_append, List.find?_eq_none.mpr later, Option.none_or,
    List.find?_cons_of_pos (by simpa using low)]

/-- There is no file in front of the first one. -/
theorem fileAt?_eq_none (outside : offset < 0 ∨ files = #[]) : fileAt? files offset = none := by
  refine List.find?_eq_none.mpr fun file mem => ?_
  rcases outside with low | rfl
  · simp only [decide_eq_true_eq]
    omega
  · simp at mem

/-- An offset from the start of the first file on belongs to one of the files. -/
theorem exists_file {list : List SourceFile}
    (first : ∃ file, list[0]? = some file ∧ (file.base : Int) ≤ offset) :
    ∃ (i : Nat) (file : SourceFile), list[i]? = some file ∧ (file.base : Int) ≤ offset ∧
    ∀ other, list[i + 1]? = some other → offset < other.base := by
  induction list using List.reverseRecOn with
  | nil =>
    obtain ⟨file, none, -⟩ := first
    cases none
  | append_singleton list last ih =>
    by_cases low : (last.base : Int) ≤ offset
    · refine ⟨list.length, last, by simp, low, fun other beyond => ?_⟩
      rw [List.getElem?_eq_none (by simp)] at beyond
      cases beyond
    · obtain ⟨i, file, here, below, above⟩ := ih <| by
        obtain ⟨file, isFirst, below⟩ := first
        cases list with
        | nil =>
          cases isFirst
          exact absurd below low
        | cons head tail => exact ⟨file, isFirst, below⟩
      have inside := (List.getElem?_eq_some_iff.mp here).1
      refine ⟨i, file, by rw [List.getElem?_append_left inside, here], below, fun other next => ?_⟩
      by_cases within : i + 1 < list.length
      · rw [List.getElem?_append_left within] at next
        exact above other next
      · rw [List.getElem?_append_right (by omega), show i + 1 - list.length = 0 by omega] at next
        cases next
        exact not_le.mp low

theorem positionOf_inside (laid : Laid files.toList)
    (here : files[i]? = some file) {k : Nat} (inside : k ≤ file.content.size) :
    positionOf files (file.base + k) = (file.name, placeBehind (file.content.toList.take k)) := by
  have found : fileAt? files (file.base + k) = some file := by
    refine fileAt?_eq_some laid here (by omega) fun other next => ?_
    have :=
      laid.behind (Nat.lt_succ_self i) (Array.getElem?_toList ▸ here) (Array.getElem?_toList ▸ next)
    omega
  rw [positionOf, found]
  simp [foldl_advancePosition]

end Files

/-! ## Marked lines -/

/-- The line of a text that a place is in: nothing but newlines and the ends of the text bound it,
and the place is in it or at its end. -/
structure IsLine (content : List Char) (pos : Nat) (before line after : List Char) : Prop where
  whole : content = before ++ line ++ after
  plain : '\n' ∉ line
  starts : before = [] ∨ before.getLast? = some '\n'
  ends : after = [] ∨ after.head? = some '\n'
  inside : before.length ≤ pos ∧ pos ≤ before.length + line.length

theorem head?_dropWhile_newline (cs : List Char) :
    cs.dropWhile (· != '\n') = [] ∨ (cs.dropWhile (· != '\n')).head? = some '\n' := by
  cases rest : cs.dropWhile (· != '\n') with
  | nil => exact .inl rfl
  | cons c more =>
    have stops := List.head?_dropWhile_not (· != '\n') cs
    rw [rest] at stops
    exact .inr (by simpa using stops)

theorem not_mem_takeWhile_newline (cs : List Char) : '\n' ∉ cs.takeWhile (· != '\n') := by
  intro mem
  have := List.mem_takeWhile_imp mem
  simp at this

/-- The characters back to a newline and those up to the next one are the line. -/
theorem isLine_around (content : List Char) {pos : Nat} (inside : pos ≤ content.length) :
    let left := ((content.take pos).reverse.takeWhile (· != '\n')).reverse
    let right := (content.drop pos).takeWhile (· != '\n')
    IsLine content pos ((content.take pos).reverse.dropWhile (· != '\n')).reverse (left ++ right)
      ((content.drop pos).dropWhile (· != '\n')) := by
  intro left right
  have front :
    ((content.take pos).reverse.dropWhile (· != '\n')).reverse ++ left = content.take pos := by
    rw [← List.reverse_append, List.takeWhile_append_dropWhile, List.reverse_reverse]
  have length := congrArg List.length front
  rw [List.length_append, List.length_take, Nat.min_eq_left inside] at length
  refine ⟨?_, ?_, ?_, head?_dropWhile_newline _, by omega, by rw [List.length_append]; omega⟩
  · rw [← List.append_assoc, front, List.append_assoc, List.takeWhile_append_dropWhile,
      List.take_append_drop]
  · rw [List.mem_append, List.mem_reverse]
    exact not_or.mpr ⟨not_mem_takeWhile_newline _, not_mem_takeWhile_newline _⟩
  · rcases head?_dropWhile_newline (content.take pos).reverse with none | some
    · exact .inl (by rw [none, List.reverse_nil])
    · exact .inr (by rw [List.getLast?_reverse, some])

/-- The marks under a place are on its line, or there is a single one at the end of the line. -/
theorem markCount_bounds {loc : Location} {pos lineEnd : Nat}
    (start : 0 ≤ loc.start ∧ loc.start < 2 ^ 62) (stop : -2 ^ 62 < loc.stop ∧ loc.stop < 2 ^ 62)
    (low : (pos : Int) ≤ loc.start) (high : pos ≤ lineEnd) :
    1 ≤ markCount loc pos lineEnd ∧ (pos + markCount loc pos lineEnd ≤ lineEnd ∨
      (markCount loc pos lineEnd = 1 ∧ pos = lineEnd)) := by
  have length : wrap64 (loc.stop - loc.start) = loc.stop - loc.start :=
    wrap64_of_range (by omega) (by omega)
  have sum : wrap64 (pos + max (loc.stop - loc.start) 1) = pos + max (loc.stop - loc.start) 1 :=
    wrap64_of_range (by omega) (by omega)
  rw [markCount, length]
  simp only [sum]
  split <;> omega

namespace Journal

/-! ## Journals -/

/-- The journals that come of an empty one when files are added and findings are reported. -/
inductive Kept : Journal → Prop
  | new (options : Option Options) (silent : Bool) : Kept (new options silent)
  | file {j : Journal} (kept : Kept j) (name : String) (content : Array Char) :
      Kept (j.addFile name content)
  | error {j k : Journal} (kept : Kept j) {loc : Location} {d : Diagnostic}
      (reported : j.error loc d = .ok k) : Kept k
  | warning {j k : Journal} (kept : Kept j) {w : Option Warning} {loc : Location} {d : Diagnostic}
      (reported : j.warn w loc d = .ok k) : Kept k

theorem files_of_add {j k : Journal} {r : Report} {tag : String} (added : j.add r tag = .ok k) :
    k.files = j.files := by
  unfold add at added
  split at added
  · exact Except.ok.inj added ▸ rfl
  · obtain ⟨text, -, same⟩ := Guarded.bind_eq_ok.mp added
    exact Except.ok.inj same ▸ rfl

theorem files_of_warn {j k : Journal} {w : Option Warning} {loc : Location} {d : Diagnostic}
    (reported : j.warn w loc d = .ok k) : k.files = j.files := by
  unfold warn at reported
  split at reported
  next => exact files_of_add reported
  next => exact Except.ok.inj reported ▸ rfl
  next =>
    split at reported
    · exact files_of_add reported
    · exact Except.ok.inj reported ▸ rfl

/-- The next file starts where the files that are there leave room. -/
theorem nextBase_eq {j : Journal} (laid : Laid j.files.toList) :
    j.nextBase = room j.files.toList := by
  unfold nextBase
  rw [← Array.getLast?_toList]
  cases last : j.files.toList.getLast? with
  | none => rw [List.getLast?_eq_none_iff.mp last]; rfl
  | some file =>
    obtain ⟨front, split⟩ := List.getLast?_eq_some_iff.mp last
    have base := laid front.length file (by rw [split]; simp)
    rw [split, List.take_left] at base
    rw [split, room_append]
    simp [base, room, Nat.add_assoc]

/-- The files of a journal lie one after the other. -/
theorem Kept.laid {j : Journal} (kept : j.Kept) : Laid j.files.toList := by
  induction kept with
  | new options silent => exact fun i file none => by simp [Journal.new] at none
  | @file j _ name content ih =>
    have more := ih.push name content
    rw [← nextBase_eq ih] at more
    simpa [addFile] using more
  | error _ reported ih => rwa [files_of_add reported]
  | warning _ reported ih => rwa [files_of_warn reported]

/-! ## Findings that are printed -/

/-- The offset of a finding in its file: its start, or the end of the file if that comes first. -/
def offsetIn (file : SourceFile) (start : Int) : Nat :=
  min (start - file.base).toNat file.content.size

/-- The line that the start of a finding is in, shown after two blanks, and marks below it that
begin in a column. -/
def ShowsLine (file : SourceFile) (start : Int) (column : Nat) (text : String) : Prop :=
  ∃ (before line after : List Char) (marks : Nat),
    IsLine file.content.toList (offsetIn file start) before line after ∧
    before.length + column = offsetIn file start + 1 ∧ text = "  " ++ String.ofList line ++
    "\n  " ++ Text.repeated (column - 1) ' ' ++ "^" ++ Text.repeated (marks - 1) '~' ++ "\n" ∧
    1 ≤ marks ∧ (column - 1 + marks ≤ line.length ∨ (marks = 1 ∧ column - 1 = line.length))

variable {j : Journal} {file : SourceFile} {r : Report}

theorem positionOf_clamped (found : fileAt? j.files r.loc.start = some file) :
    positionOf j.files r.loc.start =
    (file.name, placeBehind (file.content.toList.take (offsetIn file r.loc.start))) := by
  have clamped : file.content.toList.take (r.loc.start - file.base).toNat =
    file.content.toList.take (offsetIn file r.loc.start) := by
    rw [offsetIn, ← Array.length_toList, ← List.take_take, List.take_length]
  rw [positionOf, found]
  simp only [foldl_advancePosition, clamped]

/-- The marked line of a finding is printed. -/
theorem rendered_line (start : 0 ≤ r.loc.start ∧ r.loc.start < 2 ^ 62)
    (stop : -2 ^ 62 < r.loc.stop ∧ r.loc.stop < 2 ^ 62)
    (roomy : (file.content.size : Int) ≤ largestBlock)
    (found : fileAt? j.files r.loc.start = some file) (low : (file.base : Int) ≤ r.loc.start) :
    ∃ marked below, markedLine? j.files r.loc = some marked ∧ marked.render = .ok below ∧
    ShowsLine file r.loc.start (positionOf j.files r.loc.start).2.2 below := by
  have whole : file.content.toList.length = file.content.size := Array.length_toList
  obtain ⟨pos, isPos⟩ : ∃ pos, offsetIn file r.loc.start = pos := ⟨_, rfl⟩
  have atPos : min (r.loc.start - file.base).toNat file.content.toList.length = pos := by
    rw [whole, ← isPos, offsetIn]
  have inside : pos ≤ file.content.toList.length := by omega
  have isLine := isLine_around file.content.toList inside
  have column : (positionOf j.files r.loc.start).2.2 =
      1 + ((file.content.toList.take pos).reverse.takeWhile (· != '\n')).reverse.length := by
    rw [positionOf_clamped found, isPos, placeBehind, List.length_reverse]
  set left := ((file.content.toList.take pos).reverse.takeWhile (· != '\n')).reverse with isLeft
  set right := (file.content.toList.drop pos).takeWhile (· != '\n') with isRight
  set before := ((file.content.toList.take pos).reverse.dropWhile (· != '\n')).reverse with isBefore
  have front : before.length + left.length = pos := by
    have parts := congrArg List.length (List.takeWhile_append_dropWhile (p := (· != '\n'))
      (l := (file.content.toList.take pos).reverse))
    rw [List.length_append, List.length_reverse, List.length_take, Nat.min_eq_left inside] at parts
    rw [isBefore, isLeft, List.length_reverse, List.length_reverse]
    omega
  have back : pos + right.length ≤ file.content.toList.length := by
    have part :=
      (List.takeWhile_prefix (p := (· != '\n')) (l := file.content.toList.drop pos)).length_le
    rw [← isRight, List.length_drop] at part
    omega
  obtain ⟨some, within⟩ := markCount_bounds start stop (show (pos : Int) ≤ r.loc.start by omega)
    (Nat.le_add_right pos right.length)
  have bounded : ¬ (markCount r.loc pos (pos + right.length) - 1 > largestBlock) := by
    have wide : (1 : Int) ≤ largestBlock := by decide
    omega
  refine ⟨⟨left ++ right, left.length, markCount r.loc pos (pos + right.length)⟩, _, ?_,
    if_neg bounded, ?_⟩
  · rw [markedLine?, found, Option.map_some]
    simp only [atPos, ← isLeft, ← isRight]
  · rw [column]
    refine ⟨before, left ++ right, _, (markCount r.loc pos (pos + right.length)).toNat,
      isPos ▸ isLine, by omega, ?_, by omega, ?_⟩
    · rw [Nat.add_sub_cancel_left, show ((markCount r.loc pos (pos + right.length)).toNat - 1) =
        (markCount r.loc pos (pos + right.length) - 1).toNat by omega]
    · rw [List.length_append]
      omega

/-- The first line of a printed finding. -/
def heading (j : Journal) (r : Report) (tag : String) : String :=
  let (name, line, column) := positionOf j.files r.loc.start
  s!"{name}:{line}:{column}: " ++ r.severity.name ++ ": " ++
    r.diagnostic.message j.language ++ tag ++ "\n"

theorem rendering_outside (outside : r.loc.start < 0 ∨ j.files = #[]) (tag : String) :
    j.rendering r tag = .ok (j.heading r tag) := by
  have none : markedLine? j.files r.loc = none := by
    rw [markedLine?, fileAt?_eq_none outside, Option.map_none]
  rw [rendering, none]
  rfl

theorem rendering_inside {marked : MarkedLine} {below : String}
    (found : markedLine? j.files r.loc = some marked) (shown : marked.render = .ok below)
    (tag : String) : j.rendering r tag = .ok (j.heading r tag ++ below) := by
  rw [rendering, found]
  simp only [shown]
  rfl

/-- **Places are exact and printing is safe.** An offset in a file or at its end is shown by the
name of that file, one more than the newlines before it, and one more than the characters since the
last newline; so two offsets of a file look different, and files do not share offsets. A finding is
printed wherever it is; if it starts at an offset of a file or behind one, the line of that place is
shown, with marks from the place on that stay on the line. -/
theorem Kept.places_shown {j : Journal} (kept : j.Kept) :
    (∀ (i : Nat) file, j.files[i]? = some file → ∀ k ≤ file.content.size,
      positionOf j.files (file.base + k) = (file.name, placeBehind (file.content.toList.take k))) ∧
    (∀ (i : Nat) file, j.files[i]? = some file → ∀ k ≤ file.content.size, ∀ l ≤ file.content.size,
      (positionOf j.files (file.base + k)).2 = (positionOf j.files (file.base + l)).2 → k = l) ∧
    (∀ (i k : Nat) file other, i < k → j.files[i]? = some file → j.files[k]? = some other →
      file.base + file.content.size < other.base) ∧
    ∀ (r : Report) (tag : String), -2 ^ 62 < r.loc.start ∧
    r.loc.start < 2 ^ 62 → -2 ^ 62 < r.loc.stop ∧ r.loc.stop < 2 ^ 62 → j.Roomy →
    ∃ text, j.add r tag = .ok { j with reports := j.reports.push r, printed := j.printed ++ text } ∧
    (j.silent = true → text = "") ∧ (j.silent = false → ∃ below, text = j.heading r tag ++ below ∧
      (r.loc.start < 0 ∨ j.files = #[] → below = "") ∧
      (0 ≤ r.loc.start → j.files ≠ #[] → ∃ (i : Nat) (file : SourceFile), j.files[i]? = some file ∧
      (file.base : Int) ≤ r.loc.start ∧ (∀ other, j.files[i + 1]? = some other →
      r.loc.start < other.base) ∧ positionOf j.files r.loc.start =
      (file.name, placeBehind (file.content.toList.take (offsetIn file r.loc.start))) ∧
      ShowsLine file r.loc.start (positionOf j.files r.loc.start).2.2 below)) := by
  have laid := kept.laid
  refine ⟨fun i file here k inside => positionOf_inside laid here inside, ?_, ?_, ?_⟩
  · intro i file here k inside l inside' same
    rw [positionOf_inside laid here inside, positionOf_inside laid here inside'] at same
    exact placeBehind_take_injective (by simpa using inside) (by simpa using inside') same
  · intro i k file other less here there
    exact laid.behind less (Array.getElem?_toList ▸ here) (Array.getElem?_toList ▸ there)
  · intro r tag start stop roomy
    by_cases silent : j.silent = true
    · refine ⟨"", ?_, fun _ => rfl, fun loud => absurd (silent.symm.trans loud) (by simp)⟩
      simp only [add, silent, if_true, pure, Except.pure, bind, Except.bind]
    · have prints {text : String} (rendered : j.rendering r tag = .ok text) : j.add r tag =
          .ok { j with reports := j.reports.push r, printed := j.printed ++ text } := by
        simp only [add, silent, rendered, bind, Except.bind]
        rfl
      have small : ∀ file ∈ j.files, (file.content.size : Int) ≤ largestBlock :=
        roomy.resolve_left silent
      -- a finding in front of all sources, or without any, has no line to show
      by_cases outside : r.loc.start < 0 ∨ j.files = #[]
      · refine ⟨_, prints (rendering_outside outside tag), fun quiet => absurd quiet silent,
          fun _ => ⟨"", ?_, fun _ => rfl, ?_⟩⟩
        · exact String.append_empty.symm
        · exact fun low inhabited => absurd outside (not_or.mpr ⟨not_lt.mpr low, inhabited⟩)
      · obtain ⟨low, inhabited⟩ := not_or.mp outside
        -- the first file starts at 0, so there is a last one that starts at the place or before it
        obtain ⟨head, isHead, base⟩ := laid.first (by simpa using inhabited)
        obtain ⟨i, file, here, below, above⟩ :=
          exists_file ⟨head, isHead, show (head.base : Int) ≤ r.loc.start by omega⟩
        simp only [Array.getElem?_toList] at here above
        have found := fileAt?_eq_some laid here below above
        obtain ⟨marked, shown, line, rendered, shows⟩ :=
          rendered_line ⟨not_lt.mp low,
            start.2⟩ stop (small file (Array.mem_of_getElem? here)) found below
        refine ⟨_, prints (rendering_inside line rendered tag), fun quiet => absurd quiet silent,
          fun _ => ⟨shown, rfl, ?_, ?_⟩⟩
        · exact fun other => absurd other outside
        · exact fun _ _ => ⟨i, file, here, below, above, positionOf_clamped found, shows⟩

/-- A file of two lines and an empty one, and a finding at the end of the second line that ends
before it starts. -/
theorem shows_end_of_line :
    let j := ((new none false).addFile "a" "x\nyz".toList.toArray).addFile "b" #[]
    let r : Report := ⟨.error, ⟨4, 0⟩, .plain .printfFormat⟩
    j.Kept ∧ j.Roomy ∧ positionOf j.files 4 = ("a", 2, 3) ∧ ∃ below, j.add r "" = .ok { j with
      reports := j.reports.push r, printed := j.printed ++ (j.heading r "" ++ below) } ∧
      ∃ file, j.files[0]? = some file ∧ ShowsLine file 4 3 below := by
  intro j r
  have kept : j.Kept := .file (.file (.new none false) "a" _) "b" _
  have roomy : j.Roomy := .inr (by simp [j, addFile, new, largestBlock])
  obtain ⟨places, -, -, prints⟩ := Kept.places_shown kept
  have place : positionOf j.files 4 = ("a", 2, 3) :=
    (places 0 _ rfl 4 (by decide)).trans (by decide)
  obtain ⟨text, added, -, loud⟩ := prints r "" (by decide) (by decide) roomy
  obtain ⟨below, rfl, -, shown⟩ := loud rfl
  obtain ⟨i, file, here, low, high, -, line⟩ := shown (by decide) (by simp [j, addFile])
  refine ⟨kept, roomy, place, below, added, file, ?_, by rwa [place] at line⟩
  -- the offset lies past the empty second file, and there is no third
  rcases i with _ | _ | i
  · exact here
  · obtain rfl := Option.some.inj here
    exact absurd low (by decide)
  · cases here

end Journal

end BilingualC
