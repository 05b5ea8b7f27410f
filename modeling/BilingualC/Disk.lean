import BilingualC.Path

/-!
# Files

`FileAccess` is what a command needs of a file system. `Disk` is a file system as a value: files and
directories by their place, and a working directory. A path is followed component by component, and
every component but the last has to be a directory.
-/

namespace BilingualC

/-- Why a file operation fails. -/
inductive FileError where
  | notFound
  | notDirectory
  | isDirectory
  | alreadyExists
  | denied
  | nameTooLong
deriving DecidableEq, Repr

def FileError.message : FileError → String
  | .notFound => "no such file or directory"
  | .notDirectory => "not a directory"
  | .isDirectory => "is a directory"
  | .alreadyExists => "file exists"
  | .denied => "permission denied"
  | .nameTooLong => "file name too long"

/-- A failed operation on a path. -/
structure FileFailure where
  operation : String
  path : String
  cause : FileError
deriving DecidableEq, Repr

def FileFailure.message (f : FileFailure) : String :=
  f.operation ++ " " ++ f.path ++ ": " ++ f.cause.message

/-- What a command needs of a file system. -/
class FileAccess (m : Type → Type) where
  workingDirectory : m String
  readFile : String → m (Except FileFailure (List UInt8))
  writeFile : String → List UInt8 → m (Except FileFailure Unit)
  pathExists : String → m Bool

/-! ## Files as a value -/

/-- The place of a file or directory: its components from the root. -/
abbrev Place := List String

/-- A file system as a value. -/
structure Disk where
  files : List (Place × List UInt8)
  directories : List Place
  workingPlace : Place
deriving DecidableEq, Repr

/-- What stands at a place. -/
inductive Entry where
  | file (content : List UInt8)
  | directory
deriving DecidableEq, Repr

namespace Disk

def pathOf (p : Place) : String := "/" ++ "/".intercalate p

def entryAt? (d : Disk) (p : Place) : Option Entry :=
  if p.isEmpty || d.directories.contains p then some .directory
  else (d.files.lookup p).map .file

/-- Requires that a place is a directory. -/
def requireDirectory (d : Disk) (p : Place) : Except FileError Unit :=
  match d.entryAt? p with
  | some .directory => .ok ()
  | some (.file _) => .error .notDirectory
  | none => .error .notFound

/-- The most bytes of a name. -/
def longestName : Nat := 255

/-- Follows components from a place; the last one need not exist. -/
def follow (d : Disk) (p : Place) : List String → Except FileError Place
  | [] => .ok p
  | name :: rest => do
    d.requireDirectory p
    if longestName < name.utf8ByteSize then throw .nameTooLong
    d.follow (if name == "." then p else if name == ".." then p.dropLast else p ++ [name]) rest

/-- The place that a path leads to. A path that ends with a slash leads to no file. -/
def resolve (d : Disk) (path : String) : Except FileError Place := do
  if path.isEmpty then throw .notFound
  let place ← d.follow (if Path.isAbsolute path then [] else d.workingPlace) (Path.components path)
  match d.entryAt? place with
  | some (.file _) => if Text.endsWith "/" path then throw .notDirectory else return place
  | _ => return place

/-- What a path leads to. -/
def lookup (d : Disk) (path : String) : Except FileError Entry := do
  match d.entryAt? (← d.resolve path) with
  | some entry => return entry
  | none => throw .notFound

/-- The content of a file. -/
def read (d : Disk) (path : String) : Except FileFailure (List UInt8) :=
  match d.lookup path with
  | .ok (.file content) => .ok content
  | .ok .directory => .error ⟨"read", path, .isDirectory⟩
  | .error e => .error ⟨"open", path, e⟩

/-- Puts a file at a place. -/
def put (d : Disk) (p : Place) (content : List UInt8) : Disk :=
  { d with files := (p, content) :: d.files.filter (·.1 != p) }

/-- Takes the file from a place. -/
def erase (d : Disk) (p : Place) : Disk := { d with files := d.files.filter (·.1 != p) }

/-- Makes a directory and all directories above it. -/
def makePlace (d : Disk) (p : Place) : Disk :=
  let wanted := (List.range (p.length + 1)).map p.take
  { d with
    directories := d.directories ++ wanted.filter fun q => !q.isEmpty && !d.directories.contains q }

/-- Puts a file at a place and makes the directories above it. -/
def plant (d : Disk) (p : Place) (content : List UInt8) : Disk :=
  (d.makePlace p.dropLast).put p content

/-- Writes a file. -/
def write (d : Disk) (path : String) (content : List UInt8) : Except FileFailure Disk :=
  match d.resolve path with
  | .error e => .error ⟨"open", path, e⟩
  | .ok place =>
    if d.entryAt? place == some .directory ||
      Text.endsWith "/" path then .error ⟨"open", path, .isDirectory⟩
    else .ok (d.put place content)

/-- The names in a directory in order. -/
def names (d : Disk) (p : Place) : List String :=
  let places := d.directories ++ d.files.map (·.1)
  let inside := places.filter fun q => q.length == p.length + 1 && q.dropLast == p
  (inside.filterMap (·.getLast?)).mergeSort (· ≤ ·)

/-- Makes a directory whose parent exists. -/
def makeDirectory (d : Disk) (path : String) : Except FileFailure Disk :=
  match d.resolve path with
  | .error .notDirectory => .error ⟨"mkdir", path, .alreadyExists⟩
  | .error e => .error ⟨"mkdir", path, e⟩
  | .ok place =>
    match d.entryAt? place with
    | some .directory => .ok d
    | some (.file _) => .error ⟨"mkdir", path, .notDirectory⟩
    | none => .ok (d.makePlace place)

/-- The beginnings of a path that end before a component, and the path itself. -/
def beginnings (path : String) : List String :=
  let cs := path.toList
  let starts := (List.range cs.length).filter fun i =>
    0 < i && cs[i - 1]? == some '/' && cs[i]? != some '/' && (cs.take i).any (· != '/')
  starts.map (fun i => String.ofList (cs.take i)) ++ [path]

/-- Makes directories one inside the other. -/
def makeAll (d : Disk) : List String → Except FileFailure Disk
  | [] => .ok d
  | path :: rest => do (← d.makeDirectory path).makeAll rest

/-- Makes a directory and the directories above it. -/
def makeDirectories (d : Disk) (path : String) : Except FileFailure Disk :=
  match d.lookup path with
  | .ok .directory => .ok d
  | .ok (.file _) => .error ⟨"mkdir", path, .notDirectory⟩
  | .error _ => d.makeAll (beginnings path)

def workingDirectory (d : Disk) : String := pathOf d.workingPlace

instance : FileAccess (StateM Disk) where
  workingDirectory := return (← get).workingDirectory
  readFile path := return (← get).read path
  writeFile path content := do
    match (← get).write path content with
    | .ok d => set d; return .ok ()
    | .error e => return .error e
  pathExists path := return (← get).lookup path |>.isOk

end Disk

end BilingualC
