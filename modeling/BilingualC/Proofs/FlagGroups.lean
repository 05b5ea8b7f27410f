import Mathlib
import BilingualC.Proofs.Options
import BilingualC.Proofs.Settings

/-!
# Flags in a list and flags on a command line

The same flags can be applied as a list, as those of a workspace are, or be given on the command
line. A list lets the flags for all warnings act first, so that a flag for a single warning always
has the last word. The command applies a flag that switches something on only if it was off at the
start. So the two agree, unless all warnings are switched off and a warning that is on at the start
is switched on.

Main results:
1. `Options.warnings_applyFlags`, `Options.features_applyFlags`: what a list of flags makes of each
  warning and each feature.
2. `CommandLine.readArgs_flags`: the flags are read, and which switches are on afterwards.
3. `Command.optionsOf_flags`: when the options of the command are those of the list.
-/

namespace BilingualC

namespace Options

/-! ## Flags as they are written -/

namespace Flag

/-- How a switch is marked that switches something off. -/
def mark (on : Bool) : String := if on then "" else "no-"

/-- The name of a flag: what follows the dash. -/
def name : Flag → String
  | .feature f on => "F" ++ mark on ++ f.name
  | .warning w on => "W" ++ mark on ++ w.name
  | .allWarnings on => "W" ++ mark on ++ "all"

def text (flag : Flag) : String := "-" ++ flag.name

/-- The flag that switches the other way. -/
def opposite : Flag → Flag
  | .feature f on => .feature f (!on)
  | .warning w on => .warning w (!on)
  | .allWarnings on => .allWarnings (!on)

/-- The flags, all of them. -/
def all : List Flag :=
  Feature.all.flatMap (fun f => [.feature f true, .feature f false]) ++ Warning.all.flatMap
    (fun w => [.warning w true, .warning w false]) ++ [.allWarnings true, .allWarnings false]

theorem mem_all (flag : Flag) : flag ∈ all := by
  cases flag with
  | feature f on => cases f <;> cases on <;> decide
  | warning w on => cases w <;> cases on <;> decide
  | allWarnings on => cases on <;> decide

theorem mark_append (on : Bool) (name : String) : mark on ++ name = switchName name on := by
  cases on <;> simp [mark, switchName]

theorem text_mem_texts (flag : Flag) : flag.text ∈ flag.texts := by
  rw [mem_texts_iff, text, Text.dropStart, Text.cutStart_append]
  cases flag <;> simp [bodies, name, String.append_assoc, mark_append]

theorem ofText?_text (flag : Flag) : ofText? flag.text = some flag :=
  ofText?_eq_some_iff.mpr flag.text_mem_texts

theorem name_injective {flag other : Flag} (same : flag.name = other.name) : flag = other := by
  have text : flag.text = other.text := congrArg ("-" ++ ·) same
  exact Option.some.inj ((ofText?_text flag).symm.trans (text ▸ ofText?_text other))

theorem text_mem_texts_iff {flag other : Flag} : flag.text ∈ other.texts ↔ flag = other := by
  rw [← ofText?_eq_some_iff, ofText?_text, Option.some_inj]

/-- Of the flags as they are written, those for all warnings act first. -/
theorem text_mem_wallTexts_iff {flag : Flag} {on : Bool} :
    flag.text ∈ wallTexts on ↔ flag = .allWarnings on := by
  constructor
  · intro mem
    exact text_mem_texts_iff.1 (texts_wall on ▸ List.mem_append_left _ mem)
  · rintro rfl
    cases on <;> decide

theorem text_mem_strictTexts_iff {flag : Flag} {on : Bool} :
    flag.text ∈ strictTexts on ↔ flag = .warning .pedantic on := by
  constructor
  · intro mem
    exact text_mem_texts_iff.1 (texts_pedantic on ▸ List.mem_append_left _ mem)
  · rintro rfl
    cases on <;> decide

end Flag

/-- Nothing is switched both on and off. -/
def Consistent (flags : List Flag) : Prop := ∀ flag ∈ flags, flag.opposite ∉ flags

/-- What a pair of flags makes of something: the one that is given decides. -/
def outcome (flags : List Flag) (pair : Bool → Flag) (base : Bool) : Bool :=
  if pair true ∈ flags then true else if pair false ∈ flags then false else base

theorem outcome_congr {flags others : List Flag} {pair : Bool → Flag}
    (same : ∀ on, pair on ∈ flags ↔ pair on ∈ others)
    (base : Bool) : outcome flags pair base = outcome others pair base := by
  simp only [outcome, same]

/-! ## Flags as a list -/

/-- No flag as it is written is bare. -/
theorem plain_text (flags : List Flag) : Plain (flags.map Flag.text) := by
  have listed : ∀ flag ∈ Flag.all, flag.text ∉ ["all", "no-all", "-all", "-no-all"] := by
    decide +kernel
  intro t mem
  obtain ⟨flag, -, rfl⟩ := List.mem_map.mp mem
  exact listed flag flag.mem_all

/-- The last flag of a pair decides, and in a consistent list that is the one that is given. -/
theorem lastNamed_text {texts : Bool → List String} {pair : Bool → Flag} {flags : List Flag}
    (named : ∀ (flag : Flag) (on : Bool), flag.text ∈ texts on ↔ flag = pair on)
    (opposed : ∀ on, (pair on).opposite = pair (!on)) (consistent : Consistent flags)
    (base : Bool) :
    (lastNamed texts (flags.map Flag.text)).getD base = outcome flags pair base := by
  induction flags using List.reverseRecOn with
  | nil => rfl
  | append_singleton flags flag ih =>
    have before := ih fun other mem out =>
      consistent other (List.mem_append_left _ mem) (List.mem_append_left _ out)
    rw [List.map_append, List.map_singleton, lastNamed, lastAnswer_concat]
    simp only [named]
    by_cases mine : ∃ on, flag = pair on
    · obtain ⟨on, rfl⟩ := mine
      have out : pair (!on) ∉ flags ++ [pair on] := by
        rw [← opposed]
        exact consistent _ (by simp)
      rw [outcome]
      cases on with
      | true => rw [if_pos rfl, if_pos (by simp), Option.some_or, Option.getD_some]
      | false =>
        change pair true ∉ _ at out
        have apart : pair false ≠ pair true := fun same => out (by simp [same])
        rw [if_neg apart, if_pos rfl, if_neg out, if_pos (by simp), Option.some_or,
          Option.getD_some]
    · have apart (on : Bool) : flag ≠ pair on := fun same => mine ⟨on, same⟩
      rw [if_neg (apart true), if_neg (apart false), Option.none_or]
      refine before.trans (outcome_congr (fun on => ?_) _)
      simp [(apart on).symm]

theorem features_applyFlags {flags : List Flag} (consistent : Consistent flags)
    (o : Options) (f : Feature) : (o.applyFlags (flags.map Flag.text)).features.get f =
    outcome flags (.feature f) (o.features.get f) := by
  rw [feature_applyFlags]
  refine lastNamed_text (fun flag on => ?_) (fun on => ?_) consistent _
  · exact Flag.text_mem_texts_iff
  · rfl

theorem warnings_applyFlags {flags : List Flag} (consistent : Consistent flags) (o : Options)
    (w : Warning) : (o.applyFlags (flags.map Flag.text)).warnings.get w = outcome flags (.warning w)
    (if w = .pedantic then o.warnings.get w else outcome flags .allWarnings (o.warnings.get w)) :=
    by
  split
  next strict =>
    subst strict
    have bare : (flags.map Flag.text).any (· ∈ dashed "pedantic") = false := by
      have listed : ∀ flag ∈ Flag.all, flag.text ∉ dashed "pedantic" := by decide +kernel
      simp only [List.any_eq_false, List.mem_map, decide_eq_true_eq]
      rintro _ ⟨flag, -, rfl⟩
      exact listed flag flag.mem_all
    rw [pedantic_applyFlags, bare, Bool.false_or]
    refine lastNamed_text (fun flag on => ?_) (fun on => ?_) consistent _
    · exact Flag.text_mem_strictTexts_iff
    · rfl
  next loose =>
    have all : (lastNamed wallTexts (flags.map Flag.text)).getD (o.warnings.get w) =
        outcome flags .allWarnings (o.warnings.get w) := by
      refine lastNamed_text (fun flag on => ?_) (fun on => ?_) consistent _
      · exact Flag.text_mem_wallTexts_iff
      · rfl
    rw [warning_applyFlags o (plain_text flags) loose, all]
    refine lastNamed_text (fun flag on => ?_) (fun on => ?_) consistent _
    · exact Flag.text_mem_texts_iff
    · rfl

end Options

/-! ## Flags on a command line -/

namespace CommandLine

open Options (Flag)

variable {c : CommandLine}

theorem valueOf?_setValue_self {name : String} {old : FlagValue}
    (known : c.valueOf? name = some old) (value : FlagValue) :
    (c.setValue name value).valueOf? name = some value := by
  obtain ⟨f, found, -⟩ := Option.map_eq_some_iff.mp known
  have same (f : CommandFlag) : (if f.name == name then { f with value } else f).name = f.name := by
    split <;> rfl
  rw [find?] at found
  have named := List.find?_some found
  simp only [valueOf?, find?, setValue, List.find?_map, Function.comp_def, same, found, named,
    Option.map_some, if_true]

/-- A switch is given by its name behind one dash. -/
theorem readArg_switch {name : String} {letter : Char} {body : List Char}
    {on : Bool} (written : name.toList = letter :: body)
    (single : letter ≠ '-') (plain : cutAtEquals name.toList = (name, none))
    (known : c.valueOf? name = some (.switch on)) (next : Option String) :
    c.readArg ("-" ++ name) next = (c.setValue name (.switch true), .ok false) := by
  obtain ⟨f, found, value⟩ := Option.map_eq_some_iff.mp known
  have named : f.name = name := by simpa using List.find?_some found
  have some : (name == "") = false := by
    rw [beq_eq_false_iff_ne]
    rintro rfl
    cases written
  have read : c.readFlag ("-" ++ name) false name.toList next =
    (c.setValue name (.switch true), .ok false) := by
    simp [readFlag, plain, some, found, value, named, FlagValue.isSwitch, FlagValue.touch]
  rw [written] at read
  unfold readArg
  rw [String.toList_append, written]
  split
  next same =>
    cases same
    exact absurd rfl single
  next same =>
    cases same
    exact read
  next other => exact absurd rfl (other letter body)

theorem readArg_flag {flag : Flag} {on : Bool}
    (known : c.valueOf? flag.name = some (.switch on)) (next : Option String) :
    c.readArg flag.text next = (c.setValue flag.name (.switch true), .ok false) := by
  have plain : ∀ flag ∈ Flag.all, cutAtEquals flag.name.toList = (flag.name, none) := by decide
  have lead : ∀ flag ∈ Flag.all, flag.name.toList.head? = some 'F' ∨
      flag.name.toList.head? = some 'W' := by
    decide
  cases written : flag.name.toList with
  | nil =>
    have first := lead flag flag.mem_all
    simp [written] at first
  | cons letter body =>
    refine readArg_switch written ?_ (plain flag flag.mem_all) known next
    have first := lead flag flag.mem_all
    rw [written] at first
    rintro rfl
    simp at first

/-- Flags are read: those that were given are on, and nothing else changes. -/
theorem readArgs_flags (flags : List Flag)
    (known : ∀ flag : Flag, ∃ on, c.valueOf? flag.name = some (.switch on)) :
    ∃ c', c.readArgs (flags.map Flag.text) = (c', none) ∧ c'.args = c.args ∧
    (∀ flag : Flag, c'.isOn flag.name = (decide (flag ∈ flags) || c.isOn flag.name)) ∧
    ∀ name, (∀ flag : Flag, name ≠ flag.name) → c'.valueOf? name = c.valueOf? name := by
  induction flags generalizing c with
  | nil => exact ⟨c, by rw [List.map_nil, readArgs], rfl, fun flag => by simp, fun _ _ => rfl⟩
  | cons flag rest ih =>
    obtain ⟨on, here⟩ := known flag
    have given := valueOf?_setValue_self here (.switch true)
    have other {name : String} (ne : name ≠ flag.name) := c.valueOf?_setValue (.switch true) ne
    obtain ⟨c', read, args, switches, kept⟩ :=
      ih (c := c.setValue flag.name (.switch true)) fun flag' => by
      by_cases same : flag'.name = flag.name
      · exact ⟨true, by rw [same, given]⟩
      · rw [other same]
        exact known flag'
    refine ⟨c', ?_, args, fun flag' => ?_, fun name apart =>
      (kept name apart).trans (other (apart flag))⟩
    · have notLast : (flag.text == terminator) = false := by
        have listed : ∀ flag ∈ Flag.all, (flag.text == terminator) = false := by decide
        exact listed flag flag.mem_all
      rw [List.map_cons, readArgs, notLast, if_neg (by simp), readArg_flag here]
      exact read
    · rw [switches]
      by_cases same : flag' = flag
      · subst same
        rw [isOn, given]
        simp
      · have ne : flag'.name ≠ flag.name := fun named => same (Flag.name_injective named)
        rw [isOn, other ne, isOn]
        simp [same]

end CommandLine

/-! ## The options of the command -/

namespace Command

open Options

theorem switch_opened (flag : Flag) : ∃ on, opened.valueOf? flag.name = some (.switch on) := by
  have listed : ∀ flag ∈ Flag.all, opened.valueOf? flag.name = some (.switch true) ∨
      opened.valueOf? flag.name = some (.switch false) := by decide
  exact (listed flag flag.mem_all).elim (⟨true, ·⟩) (⟨false, ·⟩)

/-- A flag that asks for what is there at the start is on before anything is read. -/
def isOnAtStart : Flag → Bool
  | .feature f on => on && initial.features.get f
  | .warning w on => on && initial.warnings.get w
  | .allWarnings _ => false

theorem isOn_opened (flag : Flag) : opened.isOn flag.name = isOnAtStart flag := by
  have listed : ∀ flag ∈ Flag.all, opened.isOn flag.name = isOnAtStart flag := by decide
  exact listed flag flag.mem_all

/-- What the command makes of a pair of flags: one that switches on something that was on at the
start counts for nothing. -/
theorem switched_flags {c : CommandLine} {flags : List Flag}
    (given : ∀ flag : Flag, c.isOn flag.name = (decide (flag ∈ flags) || opened.isOn flag.name))
    (pair : Bool → Flag) {e : GroupEntry} (onName : e.onName = (pair true).name)
    (offName : e.offName = (pair false).name) (atStart : e.default = isOnAtStart (pair true))
    (off : isOnAtStart (pair false) = false) (on : Bool) :
    switched c e on = if pair false ∈ flags then false else if pair true ∈ flags ∧
    e.default = false then true else on := by
  rw [switched, onName, offName, given, given, isOn_opened, isOn_opened, off, ← atStart]
  cases e.default <;> simp

theorem warnings_applyGroups (o atStart : Options) (c : CommandLine) (w : Warning) :
    (o.applyGroups atStart c).warnings.get w = switched c
    (groupEntry "W" w.name w.description (atStart.warnings.get w)) (o.warnings.get w) := by
  cases w <;> rfl

theorem features_applyGroups (o atStart : Options) (c : CommandLine) (f : Feature) :
    (o.applyGroups atStart c).features.get f = switched c
    (groupEntry "F" f.name f.description (atStart.features.get f)) (o.features.get f) := by
  cases f <;> rfl

/-- What the flags for all warnings leave behind before the groups are applied. -/
def afterGlobals (c : CommandLine) : Options :=
  let o := if c.isOn "Wall" then initial.applyFlags ["-Wall"] else initial
  if c.isOn "Wno-all" then o.applyFlags ["-Wno-all"] else o

theorem features_afterGlobals (c : CommandLine) (f : Feature) :
    (afterGlobals c).features.get f = initial.features.get f := by
  unfold afterGlobals
  cases c.isOn "Wall" <;> cases c.isOn "Wno-all" <;> cases f <;> decide

theorem warnings_afterGlobals {c : CommandLine} {flags : List Flag} (consistent : Consistent flags)
    (given : ∀ flag : Flag, c.isOn flag.name = (decide (flag ∈ flags) || opened.isOn flag.name))
    (w : Warning) : (afterGlobals c).warnings.get w =
      if w = .pedantic then initial.warnings.get w else outcome flags .allWarnings
          (initial.warnings.get w) := by
  have all : c.isOn "Wall" = decide (.allWarnings true ∈ flags) := by
    have := given (.allWarnings true)
    rwa [isOn_opened, isOnAtStart, Bool.or_false] at this
  have none : c.isOn "Wno-all" = decide (.allWarnings false ∈ flags) := by
    have := given (.allWarnings false)
    rwa [isOn_opened, isOnAtStart, Bool.or_false] at this
  rw [afterGlobals, all, none]
  by_cases yes : .allWarnings true ∈ flags
  · have no : .allWarnings false ∉ flags := consistent _ yes
    simp only [outcome, yes, no, decide_true, decide_false, if_true]
    cases w <;> decide
  · by_cases no : .allWarnings false ∈ flags
    · simp only [outcome, yes, no, decide_true, decide_false, if_true]
      cases w <;> decide
    · simp only [outcome, yes, no, decide_false]
      cases w <;> decide

theorem optionsOf_afterGlobals {c : CommandLine}
    (kept : ∀ name, (∀ flag : Flag, name ≠ flag.name) → c.valueOf? name = opened.valueOf? name) :
    optionsOf c none = .ok ((afterGlobals c).applyGroups .initial c) := by
  have apart {name : String} (other : ∀ flag ∈ Flag.all, name ≠ flag.name) :
    c.valueOf? name = opened.valueOf? name :=
    kept name fun flag => other flag flag.mem_all
  have std : c.textOf "std" = "" := by
    rw [CommandLine.textOf, apart (by decide)]
    decide
  have lang : c.textOf "lang" = "" := by
    rw [CommandLine.textOf, apart (by decide)]
    decide
  have target : c.textOf "target" = "" := by
    rw [CommandLine.textOf, apart (by decide)]
    decide
  have threads : c.numberOf "max-threads" = 0 := by
    rw [CommandLine.numberOf, apart (by decide)]
    decide
  have pedantic : c.isOn "pedantic" = false := by
    rw [CommandLine.isOn, apart (by decide)]
    decide
  have standard : initial.withStandard initial.standard = initial := by decide
  simp [optionsOf, std, lang, target, threads, pedantic, Options.chooseStandard_self, standard,
    afterGlobals, Except.mapError, bind, Except.bind, pure, Except.pure]

/-- Flags on the command line do what they do as a list, but for this: a flag for a single warning
that was on at the start does not bring it back after all warnings were switched off. -/
theorem optionsOf_flags {flags : List Flag} (consistent : Consistent flags) :
    ∃ c o, Program.start commandLine (flags.map Flag.text) = (c, .ok (.act [])) ∧ optionsOf c none =
    .ok o ∧ (∀ f, o.features.get f = (initial.applyFlags (flags.map Flag.text)).features.get f) ∧
    ∀ w, o.warnings.get w = (initial.applyFlags (flags.map Flag.text)).warnings.get w ↔
    ¬ (.allWarnings false ∈ flags ∧ .warning w true ∈ flags ∧ initial.warnings.get w = true) := by
  obtain ⟨c, read, args, given, kept⟩ :=
    CommandLine.readArgs_flags (c := opened) flags switch_opened
  have silent : c.isOn "help" = false := by
    have apart : ∀ flag ∈ Flag.all, "help" ≠ flag.name := by decide
    rw [CommandLine.isOn, kept "help" fun flag => apart flag flag.mem_all]
    decide
  have started : Program.start commandLine (flags.map Flag.text) = (c, .ok (.act [])) := by
    have none : c.args = [] := args.trans (by decide)
    rw [start_of_read read silent, none]
  refine ⟨c, _, started, optionsOf_afterGlobals kept, ?_, ?_⟩
  · intro f
    have here := switched_flags given (.feature f) (e := groupEntry "F" f.name f.description
      (initial.features.get f)) rfl rfl rfl rfl (initial.features.get f)
    rw [features_applyGroups, features_afterGlobals, here, features_applyFlags consistent, outcome]
    have only : Flag.feature f true ∈ flags → Flag.feature f false ∉ flags :=
      consistent (.feature f true)
    by_cases yes : Flag.feature f true ∈ flags
    · cases initial.features.get f <;> simp [yes, only yes, groupEntry]
    · simp [yes]
  · intro w
    have here := switched_flags given (.warning w)
      (e := groupEntry "W" w.name w.description (initial.warnings.get w)) rfl rfl rfl rfl
      ((afterGlobals c).warnings.get w)
    rw [warnings_applyGroups, here, warnings_afterGlobals consistent given,
      warnings_applyFlags consistent]
    have only : Flag.warning w true ∈ flags → Flag.warning w false ∉ flags :=
      consistent (.warning w true)
    have all : Flag.allWarnings true ∈ flags → Flag.allWarnings false ∉ flags :=
      consistent (.allWarnings true)
    by_cases yes : Flag.warning w true ∈ flags
    · cases atStart : initial.warnings.get w with
      | false => simp [yes, only yes, groupEntry, outcome]
      | true =>
        have loose : w ≠ .pedantic := by
          rintro rfl
          cases atStart
        by_cases none : Flag.allWarnings false ∈ flags
        · have notAll : Flag.allWarnings true ∉ flags := fun mem => all mem none
          simp [yes, only yes, groupEntry, loose, outcome, none, notAll]
        · simp [yes, only yes, groupEntry, loose, outcome, none]
    · simp [yes, outcome]

/-- After all warnings are switched off, the command leaves the one about overflow off although its
flag is given. -/
theorem optionsOf_flags_overflow : Consistent [.allWarnings false, .warning .overflow true] ∧
    ∃ c o, Program.start commandLine ["-Wno-all", "-Woverflow"] = (c, .ok (.act [])) ∧
    optionsOf c none = .ok o ∧ o.warnings.get .overflow = false ∧
    (initial.applyFlags ["-Wno-all", "-Woverflow"]).warnings.get .overflow = true := by
  have consistent : Consistent [.allWarnings false, .warning .overflow true] := by
    unfold Consistent
    decide
  obtain ⟨c, o, started, made, -, warnings⟩ := optionsOf_flags consistent
  have listed : (initial.applyFlags ["-Wno-all", "-Woverflow"]).warnings.get .overflow = true := by
    decide
  refine ⟨consistent, c, o, started, made, ?_, listed⟩
  have differs : o.warnings.get .overflow ≠
    (initial.applyFlags ["-Wno-all", "-Woverflow"]).warnings.get .overflow :=
    fun same => (warnings .overflow).mp same (by decide)
  rw [listed] at differs
  simpa using differs

end Command

end BilingualC
