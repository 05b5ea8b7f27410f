import BilingualC.Text.Fields

/-!
# Paths

Paths are texts whose components stand between slashes. Everything here works on the text alone, as
if there were no links: the shortest equal path, joining, and taking paths apart.
-/

namespace BilingualC.Path

def isAbsolute (p : String) : Bool := Text.startsWith "/" p

/-- The components of a path without empty ones. -/
def components (p : String) : List String := (Text.splitAtChar '/' p).filter (!·.isEmpty)

/-- Adds a component to components in reverse. A step up takes back the step before it; at the root
it does nothing, and where there is no step to take back it is kept. -/
def step (rooted : Bool) (done : List String) (name : String) : List String :=
  if name == "." then done
  else if name == ".." then
    match done with
    | [] => if rooted then [] else [".."]
    | last :: rest => if last == ".." then ".." :: done else rest
  else name :: done

/-- The shortest path that means the same. -/
def clean (p : String) : String :=
  let rooted := isAbsolute p
  let path := "/".intercalate ((components p).foldl (step rooted) []).reverse
  if rooted then "/" ++ path else if path.isEmpty then "." else path

/-- Joins paths; empty ones at the start count for nothing. -/
def join (paths : List String) : String :=
  match paths.dropWhile (·.isEmpty) with
  | [] => ""
  | paths => clean ("/".intercalate paths)

/-- The last component of a path. -/
def base (p : String) : String :=
  if p.isEmpty then "."
  else match (components p).getLast? with
    | some name => name
    | none => "/"

/-- The part of a path up to its last slash, in short form. -/
def directory (p : String) : String :=
  clean (String.ofList (p.toList.reverse.dropWhile (· != '/')).reverse)

/-- A path seen from the working directory, in short form. -/
def absolute (workingDirectory p : String) : String :=
  if isAbsolute p then clean p else join [workingDirectory, p]

/-- A path inside a directory, unless it is absolute itself. -/
def inside (directory p : String) : String := if isAbsolute p then p else join [directory, p]

end BilingualC.Path
