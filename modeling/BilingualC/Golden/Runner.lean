import BilingualC.Checksum
import BilingualC.Glob
import BilingualC.Golden
import BilingualC.Path

/-!
# Running tests

Recording compiles every matching source once and stores the outcome next to it or in a directory of
its own. Testing compiles every matching source that has a golden file and compares. A file with the
content of an earlier file is not compiled again. What testing one file finds depends on that file,
on its golden file and on the image it writes, which is named for the content of the source.

A test run is shown as one line for every file, with the differences of the failed ones below it,
and a line of totals; all of it in colour.
-/

namespace BilingualC

/-! ## Summaries -/

namespace Summary

def red : String := "\x1b[91m"
def yellow : String := "\x1b[93m"
def green : String := "\x1b[92m"
def cyan : String := "\x1b[96m"
def bold : String := "\x1b[1m"
def plain : String := "\x1b[0m"

/-- The colour of a status; an unknown one has none. -/
def colour : Status → String
  | .pass => green
  | .fail | .error => red
  | .skip => yellow
  | .other _ => ""

/-- A line of a difference: removed lines are red and added ones green. -/
def diffLine (line : String) : String :=
  let trimmed := Text.trimBlanks line
  let colour :=
    if Text.startsWith "-" trimmed then red else if Text.startsWith "+" trimmed then green else ""
  "    " ++ colour ++ line ++ plain ++ "\n"

/-- A difference as it is shown; line ends after its last line count for nothing. -/
def diff (text : String) : String :=
  if text == "" then ""
  else String.join ((Text.splitAtChar '\n' (Text.trimEndWhile (· == '\n') text)).map diffLine)

/-- The lines about one file. -/
def entry (r : TestResult) : String :=
  colour r.status ++ "[" ++ Text.padRight 5 r.status.name ++ "]" ++ plain ++ " " ++ cyan ++
    r.file ++ plain ++ ": " ++ r.message ++ "\n" ++ (if r.status == .fail then diff r.diff else "")

/-- The line about the time that compilations took, if there were any. -/
def average (compiler : String) (results : List TestResult) : String :=
  let times := results.filterMap fun r => r.actual.map (·.compile.duration)
  if times.isEmpty then ""
  else "Average compile time of " ++ Path.base compiler ++ ": "
    ++ Duration.short ((wrap64 (times.foldr (· + ·) 0)).tdiv times.length) ++ "\n"

/-- The whole summary. -/
def text (compiler : String) (results : List TestResult) : String :=
  let total (colour : String) (status : Status) (word : String) :=
    colour ++ toString (results.countP (·.status == status)) ++ " " ++ word ++ plain
  String.join (results.map entry) ++ Text.repeated 70 '-' ++ "\n" ++ bold ++ "Summary:" ++
    plain ++ " " ++ total green .pass "passed" ++ ", " ++ total red .fail "failed"
    ++ ", " ++ total yellow .skip "skipped" ++ ", " ++ total red .error "errored" ++ " of "
    ++ toString results.length ++ "\n" ++ average compiler results

/-- The report of a test run: the results by file, in the order of the files. -/
def report (results : List TestResult) : Json :=
  let sorted := results.mergeSort fun a b => a.file ≤ b.file
  .object (sorted.map fun r => (r.file, r.toJson))

end Summary

/-! ## Runs -/

/-- How a program that was started ended. -/
structure Launched where
  exitCode : Int
  stdout : String
  stderr : String
deriving DecidableEq, Repr

/-- What a test run uses from outside: programs that it starts, and a text about two lists of
lines. -/
structure Launcher where
  /-- Says whether there is a program under a path. -/
  isThere : String → StateM Disk Bool
  /-- Starts a program with arguments and stops it when some time is over, or says why it cannot be
  started. The time that has passed is given beside it. -/
  start : Duration → String → List String → StateM Disk (Except String Launched × Nat)
  /-- Shows in what two lists of lines differ. -/
  difference : List String → List String → String

/-- What a test run is asked to do. -/
structure TestOptions where
  compiler : String
  compilerArgs : List String
  testFiles : String
  skipFiles : List String
  report : String
  /-- The directory of the golden files; the empty text means that of the source. -/
  goldenDirectory : String
  ignored : List String
  timeout : Duration
  verbose : Bool
  listing : Bool
  /-- A directory for images. -/
  scratch : String
deriving DecidableEq, Repr

namespace Golden

/-- The golden file of a source. -/
def pathFor (directory source : String) : String :=
  let name := "." ++ Path.base source ++ ".json"
  Path.join [if directory == "" then Path.directory source else directory, name]

end Golden

namespace TestOptions

def goldenPath (o : TestOptions) (source : String) : String :=
  Golden.pathFor o.goldenDirectory source

/-- Runs the compiler in the time that is left; what it prints to its output is given beside the
execution. -/
def execute (o : TestOptions) (l : Launcher) (left : Duration) (args : List String) :
    StateM Disk (Execution × String) :=
  do
  if left ≤ 0 then return (⟨"", -1, 0, true⟩, "")
  let (ended, elapsed) ← l.start left o.compiler args
  let late : Bool := left ≤ elapsed
  match ended with
  | .ok p => return (⟨p.stderr, if late then -1 else p.exitCode, elapsed, late⟩, p.stdout)
  | .error reason =>
    if late then return (⟨"", -1, elapsed, true⟩, "")
    return (⟨"\nExecution error: " ++ reason, -2, elapsed, false⟩, "")

/-- The image of a source with a given hash. -/
def imagePath (o : TestOptions) (hash : String) : String := Path.join [o.scratch, hash ++ ".txt"]

/-- The arguments that compile a source. -/
def compileArgs (o : TestOptions) (source hash : String) : List String :=
  ["-o", o.imagePath hash] ++ o.compilerArgs ++ [source]

/-- Compiles a source. Messages name it without its directory. The listing has to be there before
the time for the compilation is over. -/
def compile (o : TestOptions) (l : Launcher) (source hash : String) : StateM Disk Golden := do
  let args := o.compileArgs source hash
  let (e, _) ← o.execute l o.timeout args
  let e := { e with stderr := Text.replaceAll e.stderr source (Path.base source) }
  let g : Golden := { Golden.blank with sourceHash := hash, compile := e }
  if e.timedOut || e.exitCode != 0 then return g
  match (← get).read (o.imagePath hash) with
  | .error _ => return g
  | .ok bytes =>
    let g := { g with
      image := Text.textOfBytes bytes
      imageHash := Checksum.toHex (Checksum.ofBytes bytes) }
    if !o.listing then return g
    let (dump, listing) ← o.execute l (o.timeout - e.duration) ("-d" :: args)
    if dump.exitCode != 0 || dump.timedOut then return g
    return { g with listing }

/-- What is said about a compilation that took too long. -/
def timeoutMessage (o : TestOptions) : String :=
  "compilation timed out after " ++ Duration.text o.timeout

/-! ## Recording -/

/-- Why recording fails. -/
inductive RecordError where
  | pattern (e : Glob.BadPattern)
  | noSources (patterns : String)
  | file (failure : FileFailure)
  | unhashed (source : String) (failure : FileFailure)
  | timeout (source message : String)
deriving DecidableEq, Repr

def RecordError.message : RecordError → String
  | .pattern e => e.message
  | .noSources patterns => "no source files match " ++ Text.quote patterns
  | .file failure => failure.message
  | .unhashed source failure => "hashing " ++ source ++ ": " ++ failure.message
  | .timeout source message => source ++ ": " ++ message

/-- The hash of a file. -/
def hashOf (d : Disk) (path : String) : Except FileFailure String :=
  (d.read path).map fun bytes => Checksum.toHex (Checksum.ofBytes bytes)

/-- Records one source and gives the line about it. -/
def recordOne (o : TestOptions) (l : Launcher) (source : String) :
    StateM Disk (Except RecordError String) :=
  do
  match hashOf (← get) source with
  | .error failure => return .error (.unhashed source failure)
  | .ok hash =>
    let g ← o.compile l source hash
    if g.compile.timedOut then return .error (.timeout source o.timeoutMessage)
    let path := o.goldenPath source
    match (← get).write path g.write with
    | .error failure => return .error (.file failure)
    | .ok d =>
      set d
      let state := if g.compile.exitCode != 0 then "diagnostics" else "image"
      return .ok (Summary.green ++ "[RECORDED]" ++ Summary.plain ++ " " ++ source ++ " (" ++
        state ++ ") -> " ++ path)

/-- Records sources in order up to the first error, and gives the lines about them. -/
def recordAll (o : TestOptions) (l : Launcher) : List String →
    StateM Disk (List String × Option RecordError)
  | [] => return ([], none)
  | source :: rest => do
    match ← o.recordOne l source with
    | .error e => return ([], some e)
    | .ok line =>
      let (lines, e) ← o.recordAll l rest
      return (line :: lines, e)

/-- Makes the directory of the golden files, if they have one. -/
def makeGoldenDirectory (o : TestOptions) : StateM Disk (Option FileFailure) := do
  if o.goldenDirectory == "" then return none
  match (← get).makeDirectories o.goldenDirectory with
  | .ok d => set d; return none
  | .error failure => return some failure

/-- Records all sources that match some patterns. -/
def record (o : TestOptions) (l : Launcher) (patterns : String) :
    StateM Disk (List String × Option RecordError) := do
  match Glob.expand (← get) patterns with
  | .error e => return ([], some (.pattern e))
  | .ok [] => return ([], some (.noSources patterns))
  | .ok sources =>
    match ← o.makeGoldenDirectory with
    | some failure => return ([], some (.file failure))
    | none => o.recordAll l sources

/-! ## Testing -/

/-- What is to be done about a file: nothing, because the result is known, or a test. -/
inductive Task where
  | settled (r : TestResult)
  | test (file hash : String)
deriving DecidableEq, Repr

/-- What is to be done about a file; `seen` holds the first file of every hash so far. -/
def triage (d : Disk) (skipped : List String) (seen : List (String × String))
    (file : String) : Task :=
  if skipped.contains file then .settled (.plain file .skip "Explicitly skipped")
  else match hashOf d file with
    | .error failure => .settled (.plain file .error ("Cannot hash source: " ++ failure.message))
    | .ok hash =>
      match seen.lookup hash with
      | some first => .settled (.plain file .skip ("Same content as " ++ first))
      | none => .test file hash

/-- The first files of the hashes with the file of a task. -/
def Task.note (seen : List (String × String)) : Task → List (String × String)
  | .settled _ => seen
  | .test file hash => (hash, file) :: seen

/-- The tasks for some files in order. -/
def tasks (d : Disk) (skipped : List String) (seen : List (String × String)) :
    List String → List Task
  | [] => []
  | file :: rest =>
    let task := triage d skipped seen file
    task :: tasks d skipped (task.note seen) rest

/-- What is said about a golden file that cannot be read. -/
def malformed (path : String) : String := "Malformed golden file " ++ path ++ ": it holds no record"

/-- Tests a file; a line is logged on demand. -/
def testFile (o : TestOptions) (l : Launcher) (file hash : String) :
    StateM Disk (TestResult × List String) :=
  do
  let path := o.goldenPath file
  match (← get).read path with
  | .error failure =>
    if failure.cause == .notFound then
      return (.plain file .skip "No golden file; record one with -generate-golden", [])
    else return (.plain file .error failure.message, [])
  | .ok bytes =>
    match Golden.read? bytes with
    | none => return (.plain file .error (malformed path), [])
    | some want =>
      if want.sourceHash != hash then
        return (⟨file, .skip, "Source changed since the golden file was recorded", "",
          some want, none⟩, [])
      let got ← o.compile l file hash
      if got.compile.timedOut then
        return (⟨file, .error, o.timeoutMessage, "", some want, some got⟩, [])
      let line := "[" ++ Path.base file ++ "] exit " ++ toString got.compile.exitCode ++ " in "
        ++ Duration.short got.compile.duration ++ ", image " ++ got.imageHash
      return (Golden.compare file want got o.ignored l.difference, if o.verbose then [line] else [])

/-- Does a task. -/
def perform (o : TestOptions) (l : Launcher) : Task → StateM Disk (TestResult × List String)
  | .settled r => return (r, [])
  | .test file hash => o.testFile l file hash

/-- Why there is no test run. -/
inductive RunError where
  | noCompiler (path : String)
  | pattern (e : Glob.BadPattern)
deriving DecidableEq, Repr

def RunError.message : RunError → String
  | .noCompiler path => "compiler '" ++ path ++ "' not found; build it first"
  | .pattern e => e.message

/-- Tests all files that match the patterns. The results are in the order of the files; the logged
lines are given beside them. -/
def run (o : TestOptions) (l : Launcher) :
    StateM Disk (Except RunError (List TestResult × List String)) :=
  do
  if !(← l.isThere o.compiler) then return .error (.noCompiler o.compiler)
  let d ← get
  match Glob.expand d o.testFiles with
  | .error e => return .error (.pattern e)
  | .ok files =>
    let skipped := o.skipFiles.map (Path.absolute d.workingDirectory)
    let done ← (tasks d skipped [] files).mapM (o.perform l)
    return .ok ((done.map (·.1)).mergeSort fun a b => a.file ≤ b.file, done.flatMap (·.2))

end TestOptions

end BilingualC
