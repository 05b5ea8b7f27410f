import BilingualC.Disk
import BilingualC.Options
import BilingualC.Text.Case
import BilingualC.Toml.Reader

/-!
# Workspaces

A workspace is a directory with a settings file, which names the sources of a program in order and
the options for it. Settings that the file leaves out keep the value they had.
-/

namespace BilingualC

/-- What a settings file says. -/
structure Workspace where
  name : String
  sources : List String
  output : String
  backend : String
  standard : String
  language : String
  flags : List String
  maxThreads : Int
  /-- The directory of the settings file. -/
  directory : String
deriving DecidableEq, Repr

namespace Workspace

/-- The name of the settings file. -/
def fileName : String := "ruc.toml"

/-- Where the image goes if nothing is said about it. -/
def defaultOutput : String := "export.txt"

/-! ## Reading -/

/-- The values of a setting. The case of its name does not matter, so it can be given more than
once. -/
def valuesOf (entries : Toml.Entries) (name : String) : List Toml :=
  (entries.filter fun (key, _) => Text.sameLetters key name).map (·.2)

def text? : Toml → Option String
  | .string value => some value
  | _ => none

def integer? : Toml → Option Int
  | .integer value => some value
  | _ => none

def texts? : Toml → Option (List String)
  | .array items => items.mapM text?
  | .tables [] => some []
  | _ => none

def table? : Toml → Option Toml.Entries
  | .table inner => some inner
  | _ => none

/-- A setting of a certain kind. Every value given to it has to be of that kind, and the last one
counts. -/
def setting (kind : Toml → Option α) (missing : α) (entries : Toml.Entries)
    (name : String) : Option α :=
  do
  return (← (valuesOf entries name).mapM kind).getLastD missing

/-- The settings of a section; a section that is given more than once has all of them. -/
def sectionOf (entries : Toml.Entries) (name : String) : Option Toml.Entries := do
  return (← (valuesOf entries name).mapM table?).flatten

/-- The workspace that a table of settings describes. -/
def ofEntries? (entries : Toml.Entries) (directory : String) : Option Workspace := do
  let project ← sectionOf entries "project"
  let build ← sectionOf entries "build"
  let output ← setting text? "" build "output"
  return {
    name := ← setting text? "" project "name"
    sources := ← setting texts? [] build "sources"
    output := if output.isEmpty then defaultOutput else output
    backend := ← setting text? "" build "backend"
    standard := ← setting text? "" build "std"
    language := ← setting text? "" build "lang"
    flags := ← setting texts? [] build "flags"
    maxThreads := ← setting integer? 0 build "max-threads"
    directory }

/-- Why a workspace cannot be loaded. -/
inductive LoadError where
  | unreadable (failure : FileFailure)
  | malformed (path : String)
deriving DecidableEq, Repr

/-- Loads the workspace in a directory. -/
def load [Monad m] [FileAccess m] (directory : String) : m (Except LoadError Workspace) := do
  let path := Path.join [directory, fileName]
  match ← FileAccess.readFile path with
  | .error failure => return .error (.unreadable failure)
  | .ok bytes =>
    let place := Path.absolute (← FileAccess.workingDirectory) directory
    match (Toml.read? bytes).bind fun entries => ofEntries? entries place with
    | some w => return .ok w
    | none => return .error (.malformed path)

/-- A directory and the directories above it, up to the root. -/
def ancestors (directory : String) : List String :=
  let names := Path.components directory
  (List.range (names.length + 1)).reverse.map fun n => "/" ++ "/".intercalate (names.take n)

/-- The first of some directories that has a settings file. -/
def firstWithSettings [Monad m] [FileAccess m] : List String → m (Option String)
  | [] => return none
  | directory :: rest => do
    if ← FileAccess.pathExists (Path.join [directory, fileName]) then return some directory
    else firstWithSettings rest

/-- Loads the nearest workspace at or above a directory; there may be none. -/
def find [Monad m] [FileAccess m] (directory : String) : m (Except LoadError (Option Workspace)) :=
  do
  let start := Path.absolute (← FileAccess.workingDirectory) directory
  match ← firstWithSettings (ancestors start) with
  | none => return .ok none
  | some directory => return (← load directory).map some

/-! ## Using -/

/-- The sources as seen from anywhere. -/
def sourcePaths (w : Workspace) : List String := w.sources.map (Path.inside w.directory)

/-- The image as seen from anywhere. -/
def outputPath (w : Workspace) : String := Path.inside w.directory w.output

/-- Why the settings cannot be used. -/
structure SettingsError where
  cause : OptionError
deriving DecidableEq, Repr

def SettingsError.message (e : SettingsError) : String := fileName ++ ": " ++ e.cause.message

/-- Applies the settings to options, as far as they can be used; the first that cannot ends it. -/
def apply (w : Workspace) (o : Options) : Options × Option SettingsError :=
  match if w.standard == "" then .ok o else o.chooseStandard w.standard with
  | .error e => (o, some ⟨e⟩)
  | .ok o =>
    match if w.language == "" then .ok o else o.chooseLanguage w.language with
    | .error e => (o, some ⟨e⟩)
    | .ok o =>
      let o := if w.backend == "" then o else { o with backend := w.backend }
      let o := if 0 < w.maxThreads then { o with maxThreads := w.maxThreads } else o
      (o.applyFlags w.flags, none)

end Workspace

end BilingualC
