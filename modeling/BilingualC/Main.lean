import BilingualC.Command

/-!
# The executable

Gives the compiler command the files of the machine, prints what it leaves behind and ends with its
exit code.
-/

namespace BilingualC

/-- The cause of a failure that the machine reports. -/
def FileError.ofReport : IO.Error → FileError
  | .noFileOrDirectory .. => .notFound
  | .alreadyExists .. => .alreadyExists
  | .permissionDenied .. => .denied
  | .inappropriateType .. => .isDirectory
  | _ => .notFound

/-- Runs an operation on a path and turns a report into a failure. -/
def attempt (operation path : String) (action : IO α) : IO (Except FileFailure α) :=
  try
    return .ok (← action)
  catch e =>
    return .error ⟨operation, path, .ofReport e⟩

instance : FileAccess IO where
  workingDirectory := return (← IO.currentDir).toString
  readFile path := attempt "open" path do return (← IO.FS.readBinFile path).toList
  writeFile path content := attempt "open" path (IO.FS.writeBinFile path ⟨content.toArray⟩)
  pathExists path := return (← attempt "stat" path (IO.FS.realPath path)).isOk

end BilingualC

def main (arguments : List String) : IO UInt32 := do
  let outcome ← BilingualC.Command.run arguments
  IO.print outcome.stdout
  IO.eprint outcome.stderr
  return UInt32.ofInt outcome.exitCode
