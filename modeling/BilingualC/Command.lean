import BilingualC.CommandLine.Help
import BilingualC.Compilation
import BilingualC.Image.Format
import BilingualC.Image.Listing
import BilingualC.Options.Flags
import BilingualC.Workspace

/-!
# The compiler command

Options come from the workspace and from the command line, and the command line wins. The sources
are those on the command line, or else those of the workspace; the image goes to a file, or its
listing to the output.
-/

namespace BilingualC

namespace Command

def program : Program where
  name := "gruc"
  synopsis := "[options] <input.c> ..."
  description :=
    "A compiler for RuC, the bilingual teaching dialect of C, targeting the RuC virtual machine."
  authors := ["xplshn"]
  repository := "<https://github.com/xplshn/gruc>"

/-- The flags of the command that are not about warnings and features. -/
def flags : List CommandFlag :=
  [.ofText "output" "o" "" "Place the image into <file> (default export.txt)." "file",
   .ofText "target" "t" "" "Set the image format (vm, cbor)." "backend",
   .ofSwitch "dump" "d" false "Print a disassembly of the generated image and exit.",
   .ofText "std" "" "" "Specify language standard (ruc, ruc-en, ruc-ru)" "std",
   .ofText "lang" "" "" "Language of diagnostics (ru, en)." "lang",
   .ofText "workspace" "w" "" "Read sources and settings from the ruc.toml in <dir>." "dir",
   .ofNumber "max-threads" "" 0 "Maximum thread count recorded in the image." "n",
   .ofCount "verbose" "v" "Log compiler phases; repeat (or --verbose=2) for details.",
   .ofSwitch "pedantic" "" false "Issue all warnings demanded by the current RuC std.",
   .ofSwitch "Wall" "" false "Enable most warnings.",
   .ofSwitch "Wno-all" "" false "Disable all warnings."]

/-- The command line before anything is read. -/
def commandLine : CommandLine :=
  (Options.initial.defineGroups (CommandLine.empty.defineAll flags).1).1

/-! ## Settings -/

/-- What is to be compiled, and how. -/
structure Job where
  options : Options
  inputs : List String
  output : String
deriving DecidableEq, Repr

/-- Why the command stops before it compiles. -/
inductive SetupError where
  | workspace (e : Workspace.LoadError)
  | settings (e : Workspace.SettingsError)
  | option (e : OptionError)
  | noInputs
  | format (e : UnknownFormat)
  | unreadable (failure : FileFailure)
deriving Repr

/-- The options after the settings of a workspace and those of the command line. The flags for
single warnings and features act last. -/
def optionsOf (c : CommandLine) (w : Option Workspace) : Except SetupError Options := do
  let o := Options.initial
  let o := if c.isOn "pedantic" then o.setWarning .pedantic true else o
  let o ← match w with
    | none => pure o
    | some w =>
      match w.apply o with
      | (o, none) => pure o
      | (_, some e) => throw (.settings e)
  let standard := c.textOf "std"
  let o ← (o.chooseStandard (if standard == "" then o.standard.name else standard)).mapError .option
  let language := c.textOf "lang"
  let o ← if language == "" then pure o else (o.chooseLanguage language).mapError .option
  let o := if c.textOf "target" == "" then o else { o with backend := c.textOf "target" }
  let o :=
    if 0 < c.numberOf "max-threads" then { o with maxThreads := c.numberOf "max-threads" } else o
  let o := if c.isOn "Wall" then o.applyFlags ["-Wall"] else o
  let o := if c.isOn "Wno-all" then o.applyFlags ["-Wno-all"] else o
  return o.applyGroups .initial c

/-- The sources and the place of the image. -/
def jobOf (c : CommandLine) (w : Option Workspace) (args : List String) : Except SetupError Job :=
  do
  let options ← optionsOf c w
  let inputs := match w with
    | some w => if args.isEmpty then w.sourcePaths else args
    | none => args
  let output := c.textOf "output"
  let output := if output != "" then output else (w.map (·.outputPath)).getD Workspace.defaultOutput
  return ⟨options, inputs, output⟩

/-- The workspace to use: the one that the command line names, or the nearest one if there are no
sources on the command line. -/
def workspaceFor [Monad m] [FileAccess m] (c : CommandLine) (args : List String) :
    m (Except SetupError (Option Workspace)) := do
  let directory := c.textOf "workspace"
  if directory != "" then
    return ((← Workspace.load directory).mapError .workspace).map some
  else if !args.isEmpty then return .ok none
  else
    match ← Workspace.find "." with
    | .error e => return .error (.workspace e)
    | .ok none => return .error .noInputs
    | .ok (some w) => return .ok (some w)

/-- Reads source files in order. -/
def readSources [Monad m] [FileAccess m] : List String → m (Except SetupError (List Source))
  | [] => return .ok []
  | path :: rest => do
    match ← FileAccess.readFile path with
    | .error failure => return .error (.unreadable failure)
    | .ok bytes => return (← readSources rest).map (⟨path, Text.decodeUtf8 bytes⟩ :: ·)

/-! ## Running -/

/-- What a command leaves behind besides files. -/
structure Outcome where
  exitCode : Int
  stdout : String
  stderr : String
deriving DecidableEq, Repr

/-- The exit code of a command that failed. -/
def failed (stderr : String) : Outcome := ⟨1, "", stderr⟩

/-- Writes the image of a compilation, or shows its listing. -/
def deliver [Monad m] [FileAccess m] (job : Job) (format : ImageFormat) (dump : Bool)
    (diagnostics : String) (image : Image) : m Outcome :=
  do
  if dump then
    match Listing.render image.memory with
    | .ok lines => return ⟨0, String.join (lines.map (· ++ "\n")), diagnostics⟩
    | .error _ => return failed diagnostics
  else
    match ← FileAccess.writeFile job.output (format.write image) with
    | .ok () => return ⟨0, "", diagnostics⟩
    | .error _ => return failed diagnostics

/-- Finds out what to compile and reads the sources. -/
def prepare [Monad m] [FileAccess m] (c : CommandLine) (args : List String) :
    ExceptT SetupError m (Job × ImageFormat × List Source) := do
  let workspace ← ExceptT.mk (workspaceFor c args)
  let job ← ExceptT.mk (pure (jobOf c workspace args))
  let format ← ExceptT.mk (pure ((ImageFormat.ofName job.options.backend).mapError .format))
  return (job, format, ← ExceptT.mk (readSources job.inputs))

/-- The exit code of a command that broke down. -/
def brokenDown : Int := 2

/-- Compiles the sources of a job and delivers the image. -/
def compile [Monad m] [FileAccess m] (job : Job) (format : ImageFormat) (dump : Bool)
    (sources : List Source) : m Outcome :=
  match Compilation.run job.options sources with
  | .error _ => return ⟨brokenDown, "", ""⟩
  | .ok ⟨session, .error _⟩ => return failed session.journal.printed
  | .ok ⟨session, .ok image⟩ => deliver job format dump session.journal.printed image

/-- Compiles what the command line asks for. -/
def act [Monad m] [FileAccess m] (c : CommandLine) (args : List String) : m Outcome := do
  match ← (prepare c args).run with
  | .error _ => return failed ""
  | .ok (job, format, sources) => compile job format (c.isOn "dump") sources

/-- Runs the command with some arguments. -/
def run [Monad m] [FileAccess m] (arguments : List String) : m Outcome := do
  match Program.start commandLine arguments with
  | (_, .error _) => return ⟨brokenDown, "", ""⟩
  | (_, .ok (.complain e)) => return failed (program.complaint e)
  | (c, .ok .help) => return ⟨0, program.helpPage c Program.defaultWidth, ""⟩
  | (c, .ok (.act args)) => act c args

end Command

end BilingualC
