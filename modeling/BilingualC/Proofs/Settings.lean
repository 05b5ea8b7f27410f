import Mathlib
import BilingualC.Command

/-!
# Settings on their way to the compiler

The command applies the settings of a workspace to the initial options and then chooses the standard
once more, also when the command line says nothing about it. That second choice writes the keyword
features again and, under the pedantic warning, the radix feature and the warning about assignments
in conditions. So a flag of the workspace that disagrees with its standard is lost.

Main results:
1. `Options.withStandard_eq_self_iff`: for which options a second choice of the standard changes
  nothing.
2. `Command.prepare_options`: what the compiler is called with if the command line names no option
  besides the workspace, and when that is what the settings ask for.
-/

namespace BilingualC

namespace Options

/-- The options are what the choice of their own standard makes of them. -/
structure Settled (o : Options) : Prop where
  english : o.features.englishKeywords = (o.standard != .russianOnly)
  russian : o.features.russianKeywords = (o.standard != .englishOnly)
  radix : o.warnings.pedantic = true → o.features.radixPrefixes = false
  assignInCondition : o.warnings.pedantic = true → o.warnings.assignInCondition = true

/-- The keyword features as the standard has them. -/
def withKeywords (o : Options) : Options :=
  (o.setFeature .englishKeywords (o.standard != .russianOnly)).setFeature .russianKeywords
    (o.standard != .englishOnly)

theorem withStandard_self (o : Options) :
    o.withStandard o.standard = if o.warnings.pedantic then
      (o.withKeywords.setFeature .radixPrefixes false).setWarning .assignInCondition true
      else o.withKeywords :=
        rfl

theorem withKeywords_eq_self_iff (o : Options) :
    o.withKeywords = o ↔ o.features.englishKeywords = (o.standard != .russianOnly)
      ∧ o.features.russianKeywords = (o.standard != .englishOnly) := by
  obtain ⟨⟨english, russian, radix, fold, line⟩, warnings, standard, language, backend, threads⟩ :=
    o
  simp only [withKeywords, setFeature, Features.set, Options.mk.injEq, Features.mk.injEq, and_true]
  exact ⟨fun h => ⟨h.1.symm, h.2.symm⟩, fun h => ⟨h.1.symm, h.2.symm⟩⟩

/-- A second choice of the standard changes nothing exactly for settled options. -/
theorem withStandard_eq_self_iff (o : Options) : o.withStandard o.standard = o ↔ o.Settled := by
  rw [withStandard_self]
  cases pedantic : o.warnings.pedantic with
  | false =>
    rw [if_neg (by simp), withKeywords_eq_self_iff]
    exact ⟨fun h => ⟨h.1, h.2, by simp [pedantic], by simp [pedantic]⟩,
      fun h => ⟨h.english, h.russian⟩⟩
  | true =>
    rw [if_pos rfl]
    obtain ⟨⟨english, russian, radix, fold, line⟩, ⟨overflow, float, assign, strict, extra⟩,
      standard, language, backend, threads⟩ :=
      o
    obtain rfl : strict = true := pedantic
    simp only [withKeywords, setFeature, setWarning, Features.set, Warnings.set, Options.mk.injEq,
      Features.mk.injEq, Warnings.mk.injEq, and_true, true_and]
    constructor
    · rintro ⟨⟨e, r, x⟩, a⟩
      exact ⟨e.symm, r.symm, fun _ => x.symm, fun _ => a.symm⟩
    · rintro ⟨e, r, x, a⟩
      exact ⟨⟨e.symm, r.symm, (x rfl).symm⟩, (a rfl).symm⟩

theorem chooseStandard_self (o : Options) :
    o.chooseStandard o.standard.name = .ok (o.withStandard o.standard) := by
  have named : Standard.ofName? o.standard.name = some o.standard := by cases o.standard <;> decide
  rw [chooseStandard, named]

end Options

namespace CommandLine

/-- Giving a flag a value leaves the values of the others alone. -/
theorem valueOf?_setValue (c : CommandLine) {name other : String} (value : FlagValue)
    (ne : other ≠ name) : (c.setValue name value).valueOf? other = c.valueOf? other := by
  simp only [valueOf?, find?, setValue, List.find?_map, Option.map_map]
  have same (f : CommandFlag) : (if f.name == name then { f with value } else f).name = f.name := by
    split <;> rfl
  have kept (f : CommandFlag) (found : f.name = other) :
      (if f.name == name then { f with value } else f).value = f.value := by
    rw [if_neg (by simpa [found] using ne)]
  simp only [Function.comp_def, same]
  refine Option.map_congr fun f mem => ?_
  exact kept f (by simpa using List.find?_some mem)

end CommandLine

namespace Command

/-- The command line that arguments are read into: the flag for help is defined as well. -/
def opened : CommandLine := (commandLine.define Program.helpFlag).1

theorem define_helpFlag : commandLine.define Program.helpFlag = (opened, none) := by decide

/-- If arguments are read and none of them asks for help, the command acts. -/
theorem start_of_read {arguments : List String} {c : CommandLine}
    (read : opened.readArgs arguments = (c, none)) (silent : c.isOn "help" = false) :
    Program.start commandLine arguments = (c, .ok (.act c.args)) := by
  have parsed : opened.parse arguments = (c, none) := read
  have quiet : c.isOn Program.helpFlag.name = false := silent
  rw [Program.start, define_helpFlag]
  simp only [parsed, quiet, Bool.false_eq_true, if_false]

/-- No option is given besides the workspace: every other flag has the value it has before anything
is read. -/
def OnlyWorkspace (c : CommandLine) : Prop :=
  ∀ name, name ≠ "workspace" → c.valueOf? name = opened.valueOf? name

namespace OnlyWorkspace

variable {c : CommandLine}

theorem textOf (only : OnlyWorkspace c) {name : String} (other : name ≠ "workspace") :
    c.textOf name = opened.textOf name := by
  rw [CommandLine.textOf, only name other, CommandLine.textOf]

theorem numberOf (only : OnlyWorkspace c) {name : String} (other : name ≠ "workspace") :
    c.numberOf name = opened.numberOf name := by
  rw [CommandLine.numberOf, only name other, CommandLine.numberOf]

theorem isOn (only : OnlyWorkspace c) {name : String} (other : name ≠ "workspace") :
    c.isOn name = opened.isOn name := by
  rw [CommandLine.isOn, only name other, CommandLine.isOn]

end OnlyWorkspace

/-- A member of a flag group that was not given leaves its warning or feature alone. -/
theorem switched_entry {c : CommandLine} (only : OnlyWorkspace c)
    {letter name usage : String} (atStart on : Bool)
    (others : letter ++ "no-" ++ name ≠ "workspace" ∧ letter ++ name ≠ "workspace")
    (unset : opened.isOn (letter ++ "no-" ++ name) = false ∧
      (atStart = false → opened.isOn (letter ++ name) = false)) :
    Options.switched c (Options.groupEntry letter name usage atStart) on = on := by
  have notOff : c.isOn (letter ++ "no-" ++ name) = false := (only.isOn others.1).trans unset.1
  have notOn : (c.isOn (letter ++ name) && !atStart) = false := by
    cases atStart with
    | true => exact Bool.and_false _
    | false => rw [only.isOn others.2, unset.2 rfl, Bool.false_and]
  simp only [Options.switched, Options.groupEntry, GroupEntry.offName, GroupEntry.onName, notOff,
    notOn, Bool.false_eq_true, if_false]

theorem applyGroups_of_only {c : CommandLine} (only : OnlyWorkspace c) (o : Options) :
    o.applyGroups .initial c = o := by
  have warning (w : Warning) (on : Bool) : Options.switched c
      (Options.groupEntry "W" w.name w.description (Options.initial.warnings.get w)) on = on :=
    switched_entry only _ on (by cases w <;> decide) (by cases w <;> decide)
  have feature (f : Feature) (on : Bool) : Options.switched c
      (Options.groupEntry "F" f.name f.description (Options.initial.features.get f)) on = on :=
    switched_entry only _ on (by cases f <;> decide) (by cases f <;> decide)
  have sameWarning (o : Options) (w : Warning) : o.setWarning w (o.warnings.get w) = o := by
    cases w <;> rfl
  have sameFeature (o : Options) (f : Feature) : o.setFeature f (o.features.get f) = o := by
    cases f <;> rfl
  simp only [Options.applyGroups, Options.warningGroup, Options.featureGroup, Warning.all,
    Feature.all, List.map_cons, List.map_nil, List.zip_cons_cons, List.zip_nil_right,
    List.foldl_cons, List.foldl_nil, warning, feature, sameWarning, sameFeature]

/-- The options if nothing but a workspace is given: the settings are applied, and their standard is
chosen again. -/
theorem optionsOf_only {c : CommandLine} (only : OnlyWorkspace c) {w : Workspace}
    (valid : (w.apply .initial).2 = none) : optionsOf c (some w) =
    .ok ((w.apply .initial).1.withStandard (w.apply .initial).1.standard) := by
  obtain ⟨o, problem, applied⟩ : ∃ o problem, w.apply .initial = (o, problem) := ⟨_, _, rfl⟩
  obtain rfl : problem = none := by simpa [applied] using valid
  have std : c.textOf "std" = "" := (only.textOf (by decide)).trans (by decide)
  have lang : c.textOf "lang" = "" := (only.textOf (by decide)).trans (by decide)
  have target : c.textOf "target" = "" := (only.textOf (by decide)).trans (by decide)
  have threads : c.numberOf "max-threads" = 0 := (only.numberOf (by decide)).trans (by decide)
  have pedantic : c.isOn "pedantic" = false := (only.isOn (by decide)).trans (by decide)
  have wall : c.isOn "Wall" = false := (only.isOn (by decide)).trans (by decide)
  have none : c.isOn "Wno-all" = false := (only.isOn (by decide)).trans (by decide)
  simp [optionsOf, std, lang, target, threads, pedantic,
    wall, none, applied, Options.chooseStandard_self,
    applyGroups_of_only only, Except.mapError, bind, Except.bind, pure, Except.pure]

/-- The command makes its job of the workspace that it finds. -/
theorem jobOf_of_prepare {c : CommandLine} {args : List String} {d d₁ d₂ : Disk}
    {found : Option Workspace} {job : Job} {format : ImageFormat} {sources : List Source}
    (search : (workspaceFor (m := StateM Disk) c args).run d = (.ok found, d₁))
    (prepared : (prepare (m := StateM Disk) c args).run.run d = (.ok (job, format, sources), d₂)) :
    jobOf c found args = .ok job := by
  have search : workspaceFor (m := StateM Disk) c args d = (.ok found, d₁) := search
  simp only [prepare, ExceptT.run, StateT.run, bind, ExceptT.bind, ExceptT.bindCont, ExceptT.mk,
    StateT.bind, search]
    at prepared
  cases made : jobOf c found args with
  | error e =>
    simp only [made, pure, StateT.pure] at prepared
    exact nomatch prepared
  | ok job' =>
    cases known : ImageFormat.ofName job'.options.backend with
    | error e =>
      simp only [made, known, pure, StateT.pure, StateT.bind, Except.mapError, ExceptT.bindCont,
        bind] at prepared
      exact nomatch prepared
    | ok format' =>
      obtain ⟨read, d₃, reading⟩ :
          ∃ read d₃, readSources (m := StateM Disk) job'.inputs d₁ = (read, d₃) :=
        ⟨_, _, rfl⟩
      simp only [made, known, pure, StateT.pure, StateT.bind, Except.mapError, ExceptT.bindCont,
        bind] at prepared
      rw [reading] at prepared
      cases read with
      | error e => exact nomatch prepared
      | ok texts =>
        have same := congrArg Prod.fst prepared
        rw [(Prod.mk.inj (Except.ok.inj same)).1]

/-- A command that has prepared its job compiles it. -/
theorem run_of_prepare {arguments args : List String}
    {c : CommandLine} {d d' : Disk} {job : Job} {format : ImageFormat}
    {sources : List Source} (started : Program.start commandLine arguments = (c, .ok (.act args)))
    (prepared : (prepare (m := StateM Disk) c args).run.run d = (.ok (job, format, sources), d')) :
    (run (m := StateM Disk) arguments).run d =
    (compile (m := StateM Disk) job format (c.isOn "dump") sources).run d' := by
  have prepared : (prepare (m := StateM Disk) c args).run d = (.ok (job, format, sources), d') :=
    prepared
  simp only [run, started, act, StateT.run, bind, StateT.bind, prepared]

/-- If no option is given besides the workspace, the compiler is called with the options that the
settings ask for after a second choice of their standard. That leaves them alone exactly if they are
settled. -/
theorem prepare_options {arguments args : List String} {c : CommandLine}
    (started : Program.start commandLine arguments = (c, .ok (.act args))) (only : OnlyWorkspace c)
    {w : Workspace}
    (valid : (w.apply .initial).2 = none) :
    let asked := (w.apply .initial).1
    ∃ job, jobOf c (some w) args = .ok job ∧ (∀ d d₁ d₂ job' format sources,
      (workspaceFor (m := StateM Disk) c args).run d = (.ok (some w), d₁) →
      (prepare (m := StateM Disk) c args).run.run d = (.ok (job', format, sources), d₂) →
      job' = job ∧ (run (m := StateM Disk) arguments).run d =
      (compile (m := StateM Disk) job format (c.isOn "dump") sources).run d₂) ∧
      job.options = asked.withStandard asked.standard ∧ (job.options = asked ↔ asked.Settled) := by
  intro asked
  have options := optionsOf_only only valid
  obtain ⟨job, made, same⟩ : ∃ job, jobOf c (some w) args = .ok job ∧
    job.options = asked.withStandard asked.standard := by
    simp only [jobOf, options, bind, Except.bind]
    exact ⟨_, rfl, rfl⟩
  refine ⟨job, made, fun d d₁ d₂ job' format sources search prepared => ?_, same,
    same ▸ asked.withStandard_eq_self_iff⟩
  obtain rfl := Except.ok.inj ((jobOf_of_prepare search prepared).symm.trans made)
  exact ⟨rfl, run_of_prepare started prepared⟩

/-- A workspace that switches the Russian keywords off and names no standard: they are on again when
the compiler is called. -/
theorem prepare_options_keywords :
    let c := (Program.start commandLine ["-w", "."]).1
    let w : Workspace := ⟨"", ["a.c"], "export.txt", "", "", "", ["-Fno-ru-keywords"], 0, "/"⟩
    Program.start commandLine ["-w", "."] = (c, .ok (.act [])) ∧ OnlyWorkspace c ∧
      (w.apply .initial).2 = none ∧ ¬ (w.apply .initial).1.Settled ∧
      ∃ job, jobOf c (some w) [] = .ok job ∧ (w.apply .initial).1.features.russianKeywords = false ∧
      job.options.features.russianKeywords = true := by
  intro c w
  have read : opened.readArgs ["-w", "."] = (opened.setValue "workspace" (.text "."), none) := by
    have step :
        opened.readArg "-w" (some ".") = (opened.setValue "workspace" (.text "."), .ok true) := by
      decide
    rw [CommandLine.readArgs.eq_def]
    simp only [List.head?_cons, step, List.tail_cons, CommandLine.readArgs]
    rfl
  have kept {name : String} (other : name ≠ "workspace") :
      (opened.setValue "workspace" (.text ".")).valueOf? name = opened.valueOf? name :=
    opened.valueOf?_setValue _ other
  have silent : (opened.setValue "workspace" (.text ".")).isOn "help" = false := by
    rw [CommandLine.isOn, kept (by decide)]
    decide
  have started := start_of_read read silent
  have same : c = opened.setValue "workspace" (.text ".") := congrArg Prod.fst started
  have only : OnlyWorkspace c := fun name other => same ▸ kept other
  have started : Program.start commandLine ["-w", "."] = (c, .ok (.act [])) := by
    rw [started, same]
    rfl
  have valid : (w.apply .initial).2 = none := by decide
  have off : (w.apply .initial).1.features.russianKeywords = false := by decide
  obtain ⟨job, made, -, chosen, settled⟩ := prepare_options started only valid
  refine ⟨started, only, valid, fun asked => ?_, job, made, off, ?_⟩
  · exact absurd (asked.russian.symm.trans off) (by decide)
  · rw [chosen]
    decide

end Command

end BilingualC
