import Mathlib
import BilingualC.CommandLine

/-!
# Reading arguments in parts

Arguments are read one by one, and an argument may use up the next one as its value. So a list can
be cut behind every part that reads well by itself: no argument of that part lacks a value, and none
reaches into the rest. The positional arguments that were there before stay in front.

Main result: `CommandLine.parse_append`, reading two lists together and one after the other.
-/

namespace BilingualC.CommandLine

/-! ## Positional arguments in front -/

/-- A command line with more positional arguments in front of its own. -/
def behind (c : CommandLine) (front : List String) : CommandLine :=
  { c with args := front ++ c.args }

/-- A step that finds more positional arguments in front leaves them there and does nothing else
with them. -/
def Unmoved (step : CommandLine → Step) : Prop :=
  ∀ (c : CommandLine) (front : List String), step (c.behind front) =
    ((step c).1.behind front, (step c).2)

theorem unmoved_give (f : CommandFlag) (text : String) (written : Option String) (usedNext : Bool) :
    Unmoved fun c => c.give f text written usedNext := by
  intro c front
  simp only [give]
  cases f.value.set text <;> rfl

theorem unmoved_readShorts (next : Option String) (letters : List Char) :
    Unmoved fun c => c.readShorts next letters := by
  intro c front
  induction letters generalizing c with
  | nil => rfl
  | cons letter rest ih =>
    simp only [readShorts, show (c.behind front).findShort? = c.findShort? from rfl]
    cases c.findShort? (String.singleton letter) with
    | none => rfl
    | some f =>
      by_cases touched : f.value.isSwitch = true
      · simp only [touched, if_true]
        exact ih (c.setValue f.name f.value.touch)
      · simp only [touched, Bool.false_eq_true, if_false]
        generalize (if rest.head? == some '=' then rest.tail else rest) = attached
        cases attached with
        | nil =>
          cases next with
          | none => rfl
          | some text => exact unmoved_give f text none true c front
        | cons first more => exact unmoved_give f (String.ofList (first :: more)) none false c front

theorem unmoved_readFlag (arg : String) (isLong : Bool) (body : List Char) (next : Option String) :
    Unmoved fun c => c.readFlag arg isLong body next := by
  intro c front
  simp only [readFlag, show (c.behind front).find? = c.find? from rfl]
  obtain ⟨name, value⟩ := cutAtEquals body
  by_cases missing : (name == "") = true
  · simp only [missing, if_true]
  · simp only [missing, Bool.false_eq_true, if_false]
    cases c.find? name with
    | none =>
      cases isLong with
      | true => rfl
      | false => exact unmoved_readShorts next body c front
    | some f =>
      cases value with
      | some text => exact unmoved_give f text (some name) false c front
      | none =>
        by_cases touched : f.value.isSwitch = true
        · simp only [touched, if_true]
          rfl
        · simp only [touched, Bool.false_eq_true, if_false]
          cases next with
          | none => rfl
          | some text => exact unmoved_give f text (some name) true c front

theorem unmoved_readArg (arg : String) (next : Option String) :
    Unmoved fun c => c.readArg arg next := by
  intro c front
  simp only [readArg]
  split
  next body _ => exact unmoved_readFlag arg true body next c front
  next letter body _ _ => exact unmoved_readFlag arg false (letter :: body) next c front
  next => simp only [behind, List.append_assoc]

/-- Reading adds to the positional arguments that are there. -/
theorem readArgs_behind (c : CommandLine) (front arguments : List String) :
    (c.behind front).readArgs arguments =
    ((c.readArgs arguments).1.behind front, (c.readArgs arguments).2) := by
  fun_induction c.readArgs arguments with
  | case1 c => rw [readArgs]
  | case2 c arg rest last =>
    rw [readArgs, if_pos last]
    simp only [behind, List.append_assoc]
  | case3 c arg rest more c' e step =>
    have moved := unmoved_readArg arg rest.head? c front
    simp only [step] at moved
    rw [readArgs, if_neg more, moved]
  | case4 c arg rest more c' step ih =>
    have moved := unmoved_readArg arg rest.head? c front
    simp only [step] at moved
    rw [readArgs, if_neg more, moved]
    exact ih
  | case5 c arg rest more c' step ih =>
    have moved := unmoved_readArg arg rest.head? c front
    simp only [step] at moved
    rw [readArgs, if_neg more, moved]
    exact ih

/-! ## The argument that follows -/

/-- A step that needs no next argument does the same whatever follows. -/
def Complete (step : Option String → Step) : Prop :=
  ∀ c used, step none = (c, .ok used) → used = false ∧ ∀ next, step next = (c, .ok false)

theorem complete_of_const {step : Step} (unused : step.2 ≠ .ok true) : Complete fun _ => step := by
  rintro c used rfl
  cases used with
  | true => exact absurd rfl unused
  | false => exact ⟨rfl, fun _ => rfl⟩

theorem complete_give (c : CommandLine) (f : CommandFlag) (text : String)
    (written : Option String) : Complete fun _ => c.give f text written false := by
  refine complete_of_const ?_
  unfold give
  cases f.value.set text <;> simp

theorem complete_readShorts (c : CommandLine) (letters : List Char) :
    Complete fun next => c.readShorts next letters := by
  induction letters generalizing c with
  | nil => exact complete_of_const (by simp)
  | cons letter rest ih =>
    simp only [readShorts]
    cases c.findShort? (String.singleton letter) with
    | none => exact complete_of_const (by simp)
    | some f =>
      by_cases touched : f.value.isSwitch = true
      · simp only [touched, if_true]
        exact ih _
      · simp only [touched, Bool.false_eq_true, if_false]
        generalize (if rest.head? == some '=' then rest.tail else rest) = attached
        cases attached with
        | nil => exact nofun
        | cons first more => exact complete_give c f (String.ofList (first :: more)) none

theorem complete_readFlag (c : CommandLine) (arg : String) (isLong : Bool) (body : List Char) :
    Complete (c.readFlag arg isLong body) := by
  unfold readFlag
  obtain ⟨name, value⟩ := cutAtEquals body
  by_cases missing : (name == "") = true
  · simp only [missing, if_true]
    exact complete_of_const (by simp)
  · simp only [missing, Bool.false_eq_true, if_false]
    cases c.find? name with
    | none =>
      cases isLong with
      | true => exact complete_of_const (by simp)
      | false => exact complete_readShorts c body
    | some f =>
      cases value with
      | some text => exact complete_give c f text (some name)
      | none =>
        by_cases touched : f.value.isSwitch = true
        · simp only [touched, if_true]
          exact complete_of_const (by simp)
        · simp only [touched, Bool.false_eq_true, if_false]
          exact nofun

theorem complete_readArg (c : CommandLine) (arg : String) : Complete (c.readArg arg) := by
  unfold readArg
  split
  next body _ => exact complete_readFlag c arg true body
  next letter body _ _ => exact complete_readFlag c arg false (letter :: body)
  next => exact complete_of_const (by simp)

/-- Arguments that are read without an error leave the rest of the list to be read from there on. -/
theorem readArgs_append {c c' : CommandLine} {xs : List String}
    (ys : List String) (plain : terminator ∉ xs)
    (reads : c.readArgs xs = (c', none)) : c.readArgs (xs ++ ys) = c'.readArgs ys := by
  fun_induction c.readArgs xs with
  | case1 c => exact (Prod.mk.inj reads).1 ▸ rfl
  | case2 c arg rest last => exact absurd (by simp [eq_of_beq last]) plain
  | case3 c arg rest more c'' e step => exact nomatch reads
  | case4 c arg rest more c'' step ih =>
    have goes : c.readArg arg (rest ++ ys).head? = (c'', .ok false) := by
      cases rest with
      | nil => exact (complete_readArg c arg c'' false step).2 ys.head?
      | cons value rest => exact step
    rw [List.cons_append, readArgs, if_neg more, goes]
    exact ih (fun mem => plain (List.mem_cons_of_mem arg mem)) reads
  | case5 c arg rest more c'' step ih =>
    -- The value stands in the first part: without it the argument could not have been read.
    obtain ⟨value, rest, rfl⟩ : ∃ value more, rest = value :: more := by
      cases rest with
      | nil => exact nomatch (complete_readArg c arg c'' true step).1
      | cons value rest => exact ⟨value, rest, rfl⟩
    rw [List.cons_append, readArgs, if_neg more, List.cons_append, List.head?_cons]
    simp only [List.head?_cons] at step
    simp only [step, List.tail_cons]
    exact ih (fun mem => plain (List.mem_cons_of_mem arg (List.mem_cons_of_mem value mem))) reads

/-! ## Two lists -/

/-- Two lists of arguments read together come to the same as one after the other: the same error or
none, the same flags with the same values, and the positional arguments of the first list before
those of the second. The first list has to be read without an error and without a terminator. -/
theorem parse_append {c c' : CommandLine} {xs : List String} (ys : List String)
    (plain : terminator ∉ xs) (reads : c.parse xs = (c', none)) : c.parse (xs ++ ys) =
    ({ (c'.parse ys).1 with args := c'.args ++ (c'.parse ys).1.args }, (c'.parse ys).2) := by
  have split : c' = { c' with args := [] }.behind c'.args := by simp [behind]
  calc c.parse (xs ++ ys) = c'.readArgs ys := readArgs_append ys plain reads
    _ = ({ c' with args := [] }.behind c'.args).readArgs ys := by rw [← split]
    _ = ((c'.parse ys).1.behind c'.args, (c'.parse ys).2) :=
      readArgs_behind { c' with args := [] } c'.args ys

/-- A counter and a flag in one cluster, with a value that looks like a flag; then the counter by
its name, and a positional argument behind the terminator. -/
theorem parse_append_cluster :
    let c : CommandLine := ⟨[.ofCount "verbose" "v" "", .ofText "output" "o" "" "" "file"], [], []⟩
    let read := c.parse ["-vo", "-x", "a.c", "--verbose", "--", "-v"]
    terminator ∉ ["-vo", "-x", "a.c"] ∧ (c.parse ["-vo", "-x", "a.c"]).2 = none ∧ read.2 = none ∧
      read.1.args = ["a.c", "-v"] ∧ read.1.valueOf? "verbose" = some (.count 2) ∧
      read.1.valueOf? "output" = some (.text "-x") := by
  intro c read
  let c₁ : CommandLine := ⟨[{ CommandFlag.ofCount "verbose" "v" "" with value := .count 1 },
    { CommandFlag.ofText "output" "o" "" "" "file" with value := .text "-x" }], [], ["a.c"]⟩
  let c₂ : CommandLine := { c₁ with args := [] }.setValue "verbose" (.count 2)
  have plain : terminator ∉ ["-vo", "-x", "a.c"] := by decide
  have first : c.parse ["-vo", "-x", "a.c"] = (c₁, none) := by
    have cluster : c.readArg "-vo" (some "-x") = ({ c₁ with args := [] }, .ok true) := by decide
    have file : { c₁ with args := [] }.readArg "a.c" none = (c₁, .ok false) := by decide
    change c.readArgs _ = _
    rw [readArgs, if_neg (by decide), List.head?_cons, cluster]
    change { c₁ with args := [] }.readArgs ["a.c"] = _
    rw [readArgs, if_neg (by decide), List.head?_nil, file]
    exact readArgs.eq_1 c₁
  have second : c₁.parse ["--verbose", "--", "-v"] = ({ c₂ with args := ["-v"] }, none) := by
    have counted : { c₁ with args := [] }.readArg "--verbose" (some "--") = (c₂, .ok false) := by
      decide
    change { c₁ with args := [] }.readArgs _ = _
    rw [readArgs, if_neg (by decide), List.head?_cons, counted]
    change c₂.readArgs ["--", "-v"] = _
    rw [readArgs, if_pos (by decide)]
    rfl
  have whole : read = ({ c₂ with args := ["a.c", "-v"] }, none) := by
    have both := parse_append ["--verbose", "--", "-v"] plain first
    rwa [second] at both
  refine ⟨plain, congrArg Prod.snd first, ?_⟩
  rw [whole]
  decide

end BilingualC.CommandLine
