import BilingualC.Command
import BilingualC.Golden.Flags

/-!
# The test command

Records golden files, or tests and prints a summary and writes a report. The command fails if a test
failed. The compiler under test is started through a launcher; `Launcher.compiler` is the one that
knows the compiler command of this library.
-/

namespace BilingualC

namespace Launcher

/-- Why a path cannot be started. -/
def refusal (d : Disk) (path : String) : String :=
  if path == "" then "exec: no command"
  else if !path.toList.contains '/' then
    "exec: " ++ Text.quote path ++ ": executable file not found in $PATH"
  else
    let cause := match d.lookup path with
      | .ok _ => FileError.denied
      | .error e => e
    FileFailure.message ⟨"fork/exec", path, cause⟩

/-- Starts the compiler command under one path and nothing else. It always takes the same time, and
does nothing if it has less. -/
def compiler (self : String) (elapsed : Nat)
    (difference : List String → List String → String := Golden.lineDiff) : Launcher where
  isThere path := return path == self || ((← get).lookup path).isOk
  start left path args := do
    if path != self then return (.error (refusal (← get) path), elapsed)
    if left ≤ elapsed then return (.ok ⟨-1, "", ""⟩, elapsed)
    let r ← Command.run args
    return (.ok ⟨r.exitCode, r.stdout, r.stderr⟩, elapsed)
  difference

end Launcher

namespace TestOptions

/-- The path of the report. -/
def reportPath (o : TestOptions) : String :=
  if o.goldenDirectory == "" then o.report else Path.join [o.goldenDirectory, o.report]

/-- Writes the report, or says why that is not possible. -/
def writeReport (o : TestOptions) (results : List TestResult) : StateM Disk (Option String) := do
  match ← o.makeGoldenDirectory with
  | some failure => return some failure.message
  | none =>
    match (← get).write o.reportPath (Text.bytesOfText (Summary.report results).write) with
    | .error failure => return some ("writing report: " ++ failure.message)
    | .ok d => set d; return none

end TestOptions

namespace TestCommand

open Command (Outcome)

/-- A line of the log about an error. -/
def errorLine (message : String) : String :=
  Summary.red ++ "[ERROR]" ++ Summary.plain ++ " " ++ message ++ "\n"

def logged (lines : List String) : String := String.join (lines.map (· ++ "\n"))

/-- Records golden files. -/
def record (o : TestOptions) (l : Launcher) (patterns : String) : StateM Disk Outcome := do
  match ← o.record l patterns with
  | (lines, none) => return ⟨0, "", logged lines⟩
  | (lines, some e) => return ⟨1, "", logged lines ++ errorLine e.message⟩

/-- Tests and tells about it. -/
def test (o : TestOptions) (l : Launcher) : StateM Disk Outcome := do
  match ← o.run l with
  | .error e => return ⟨1, "", errorLine e.message⟩
  | .ok (results, lines) =>
    if results.isEmpty then
      return ⟨0, "", logged lines ++ "No test files match " ++ Text.quote o.testFiles ++ ".\n"⟩
    let summary := Summary.text o.compiler results
    let code : Int := if hasFailures results then 1 else 0
    match ← o.writeReport results with
    | none =>
      return ⟨code, summary ++ "Full report saved to " ++ o.reportPath ++ "\n", logged lines⟩
    | some e => return ⟨code, summary, logged lines ++ errorLine e⟩

/-- Removes what was written to a directory. -/
def clear (place : Place) : StateM Disk Unit :=
  modify fun d => { d with files := d.files.filter fun (p, _) => p.take place.length != place }

/-- Runs the test command, called by some name, with some arguments; `scratch` is a place for
images, which are removed at the end. -/
def run (command : String) (l : Launcher) (scratch : Place) (arguments : List String) :
    StateM Disk Outcome :=
  do
  match TestFlags.read TestFlags.initial arguments with
  | .error stop => return ⟨stop.exitCode, "", stop.message ++ TestFlags.usage command⟩
  | .ok flags =>
    modify (·.makePlace scratch)
    let o := TestFlags.options flags (Disk.pathOf scratch)
    let patterns := TestFlags.textOf flags "generate-golden"
    let outcome ← if patterns == "" then test o l else record o l patterns
    clear scratch
    return outcome

end TestCommand

end BilingualC
