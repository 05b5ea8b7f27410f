import Mathlib
import BilingualC.Path

/-!
# Files inside a directory

A plain name added to a directory stands at the end of the joined path, whatever steps the directory
is made of. So different names give different paths.
-/

namespace BilingualC

namespace Text

theorem consFirst_append (c : Char) {pieces : List (List Char)} (some : pieces ≠ [])
    (more : List (List Char)) : consFirst c (pieces ++ more) = consFirst c pieces ++ more := by
  cases pieces with
  | nil => exact absurd rfl some
  | cons piece pieces => rfl

theorem cutAt_cons (isCut : Char → Bool) (c : Char) (cs : List Char) : cutAt isCut (c :: cs) =
    if isCut c then [] :: cutAt isCut cs else consFirst c (cutAt isCut cs) :=
  rfl

theorem cutAt_ne_nil (isCut : Char → Bool) (cs : List Char) : cutAt isCut cs ≠ [] := by
  cases cs with
  | nil => exact List.cons_ne_nil [] []
  | cons c cs =>
    rw [cutAt_cons]
    split
    · simp
    · cases cutAt isCut cs <;> simp [consFirst]

/-- A cut between two parts leaves their own pieces. -/
theorem cutAt_append_cons (isCut : Char → Bool) {mark : Char}
    (cuts : isCut mark = true) (before after : List Char) :
    cutAt isCut (before ++ mark :: after) = cutAt isCut before ++ cutAt isCut after := by
  induction before with
  | nil => rw [List.nil_append, cutAt_cons, if_pos cuts]; rfl
  | cons c cs ih =>
    rw [List.cons_append, cutAt_cons, ih, cutAt_cons]
    split
    · rfl
    · exact consFirst_append c (cutAt_ne_nil isCut cs) _

theorem cutAt_eq_self {isCut : Char → Bool} {cs : List Char} (uncut : ∀ c ∈ cs, isCut c = false) :
    cutAt isCut cs = [cs] := by
  induction cs with
  | nil => rfl
  | cons c cs ih =>
    rw [cutAt_cons, uncut c List.mem_cons_self, ih fun c mem => uncut c (List.mem_cons_of_mem _ mem)]
    rfl

theorem afterStart?_cons (p c : Char) (ps cs : List Char) :
    afterStart? (p :: ps) (c :: cs) = if p == c then afterStart? ps cs else none :=
  rfl

theorem afterStart?_eq_some_iff {start text rest : List Char} :
    afterStart? start text = some rest ↔ text = start ++ rest := by
  induction start generalizing text with
  | nil => exact Option.some_inj
  | cons p ps ih =>
    cases text with
    | nil => exact iff_of_false (Option.some_ne_none rest).symm (List.cons_ne_nil p _).symm
    | cons c cs =>
      by_cases same : p = c
      · simp [afterStart?_cons, same, ih]
      · simp [afterStart?_cons, same, Ne.symm same]

theorem startsWith_append_of_ne_empty {first : Char} {s : String} (some : s ≠ "") (more : String) :
    startsWith (String.ofList [first]) (s ++ more) = startsWith (String.ofList [first]) s := by
  obtain ⟨c, cs, chars⟩ : ∃ c cs, s.toList = c :: cs := by
    cases chars : s.toList with
    | nil => exact absurd (String.toList_inj.mp (chars.trans String.toList_empty.symm)) some
    | cons c cs => exact ⟨c, cs, rfl⟩
  simp only [startsWith, String.toList_ofList, String.toList_append, chars, List.cons_append,
    afterStart?_cons]
  split <;> rfl

end Text

namespace Path

/-- A name without a slash that is no step to the same directory or the one above. -/
structure Plain (name : String) : Prop where
  some : name ≠ ""
  whole : '/' ∉ name.toList
  here : name ≠ "."
  up : name ≠ ".."

theorem components_append (before after : String) :
    components (before ++ "/" ++ after) = components before ++ components after := by
  have chars : (before ++ "/" ++ after).toList = before.toList ++ '/' :: after.toList := by simp
  have cut : Text.cutAt (· == '/') (before.toList ++ '/' :: after.toList)
      = Text.cutAt (· == '/') before.toList ++ Text.cutAt (· == '/') after.toList :=
    Text.cutAt_append_cons (· == '/') (beq_self_eq_true '/') before.toList after.toList
  simp only [components, Text.splitAtChar, chars, cut, List.map_append, List.filter_append]

theorem components_plain {name : String} (plain : Plain name) : components name = [name] := by
  have uncut : ∀ c ∈ name.toList, (c == '/') = false := fun c mem => by
    rw [beq_eq_false_iff_ne]
    rintro rfl
    exact plain.whole mem
  rw [components, Text.splitAtChar, Text.cutAt_eq_self uncut]
  simp [plain.some]

theorem isAbsolute_plain {name : String} (plain : Plain name) : isAbsolute name = false := by
  have chars : ("/" : String).toList = ['/'] := rfl
  rw [isAbsolute, Text.startsWith, chars]
  cases split : name.toList with
  | nil => rfl
  | cons c cs =>
    have ne : '/' ≠ c := fun same => plain.whole (by rw [split, same]; exact List.mem_cons_self)
    simp [Text.afterStart?_cons, ne]

theorem step_plain {name : String} (plain : Plain name) (rooted : Bool) (done : List String) :
    step rooted done name = name :: done := by
  simp [step, plain.here, plain.up]

theorem intercalate_append_singleton (names : List String) (name : String) :
    "/".intercalate (names ++ [name]) = String.join (names.map (· ++ "/")) ++ name := by
  induction names with
  | nil => simp
  | cons first rest ih =>
    rw [List.cons_append, String.intercalate_cons_of_ne_nil (by simp), ih, List.map_cons,
      String.join_cons]
    simp only [String.append_assoc]

/-- What stands in front of a plain name in its path in a directory. -/
def front (directory : String) : String :=
  let names := ((components directory).foldl (step (isAbsolute directory)) []).reverse
  (if isAbsolute directory then "/" else "") ++ String.join (names.map (· ++ "/"))

/-- A plain name is the end of its path in a directory, and the rest of the path is the same for all
names. -/
theorem join_plain (directory : String) {name : String} (plain : Plain name) :
    join [directory, name] = front directory ++ name := by
  by_cases none : directory = ""
  · subst none
    have path : join ["", name] = clean name := by simp [join, plain.some]
    have empty : front "" = "" := by decide
    rw [path, empty, clean, isAbsolute_plain plain, components_plain plain, List.foldl_cons,
      step_plain plain]
    simp [plain.some]
  · have path : join [directory, name] = clean (directory ++ "/" ++ name) := by
      simp [join, none, String.intercalate_cons_of_ne_nil]
    have rooted : isAbsolute (directory ++ "/" ++ name) = isAbsolute directory := by
      rw [String.append_assoc]
      exact Text.startsWith_append_of_ne_empty none _
    simp only [path, clean, rooted, components_append,
      components_plain plain, List.foldl_append, List.foldl_cons,
      List.foldl_nil, step_plain plain, List.reverse_cons, intercalate_append_singleton, front]
    split <;> simp [plain.some, String.append_assoc]

theorem join_plain_inj {directory name other : String} (plain : Plain name) (plain' : Plain other)
    (same : join [directory, name] = join [directory, other]) : name = other := by
  rw [join_plain directory plain, join_plain directory plain'] at same
  exact (String.append_right_inj _).mp same

end Path

end BilingualC
