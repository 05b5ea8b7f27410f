import BilingualC.Duration
import BilingualC.Json
import BilingualC.Text.Case

/-!
# Golden files

A golden file records what one compilation of a source produced: the exit code, the messages, the
image and, on demand, the listing. A later compilation is compared with it part by part. Lines of
the messages can be left out of the comparison.
-/

namespace BilingualC

/-- One run of the compiler. -/
structure Execution where
  stderr : String
  exitCode : Int
  duration : Duration
  timedOut : Bool
deriving DecidableEq, Repr

/-- What one compilation of a source produced. The image and the listing are empty if the compiler
rejected the program. -/
structure Golden where
  sourceHash : String
  compile : Execution
  imageHash : String
  image : String
  listing : String
deriving DecidableEq, Repr

def Execution.blank : Execution := ⟨"", 0, 0, false⟩
def Golden.blank : Golden := ⟨"", .blank, "", "", ""⟩

/-- How a test ended. -/
inductive Status where
  | pass
  | fail
  | skip
  | error
  | other (name : String)
deriving DecidableEq, Repr

namespace Status

def name : Status → String
  | .pass => "PASS"
  | .fail => "FAIL"
  | .skip => "SKIP"
  | .error => "ERROR"
  | .other name => name

def ofName (text : String) : Status :=
  if text == "PASS" then .pass
  else if text == "FAIL" then .fail
  else if text == "SKIP" then .skip
  else if text == "ERROR" then .error
  else .other text

end Status

/-- The result of testing one file. -/
structure TestResult where
  file : String
  status : Status
  message : String
  diff : String
  expected : Option Golden
  actual : Option Golden
deriving DecidableEq, Repr

/-- A result that says only why there was no comparison. -/
def TestResult.plain (file : String) (status : Status) (message : String) : TestResult :=
  ⟨file, status, message, "", none, none⟩

/-- Says whether a test run as a whole failed. -/
def hasFailures (results : List TestResult) : Bool :=
  results.any fun r => r.status == .fail || r.status == .error

/-! ## Comparing -/

namespace Golden

/-- Leaves out the lines that contain one of some texts; an empty text is in no line. -/
def filterLines (output : String) (ignored : List String) : String :=
  if ignored.isEmpty || output == "" then output
  else
    let isIgnored (line : String) := ignored.any fun part => part != "" && Text.contains line part
    "\n".intercalate ((Text.splitAtChar '\n' output).filter (!isIgnored ·))

/-- The lines of a text; a line end after the last line counts for nothing. -/
def lines (s : String) : List String :=
  if s == "" then [] else Text.splitAtChar '\n' (Text.dropEnding "\n" s)

/-- A plain way to show in what two lists of lines differ: what only the first has, then what only
the second has, without the lines that both begin or end with. -/
def lineDiff (want got : List String) : String :=
  let same := ((want.zip got).takeWhile fun (a, b) => a == b).length
  let want := want.drop same
  let got := got.drop same
  let tail := ((want.reverse.zip got.reverse).takeWhile fun (a, b) => a == b).length
  let mark (sign : String) (ls : List String) :=
    String.join ((ls.take (ls.length - tail)).map fun l => sign ++ l ++ "\n")
  mark "-" want ++ mark "+" got

/-- A part in which a compilation differs from the golden file. -/
inductive Mismatch where
  | exitCode (golden actual : Int)
  | diagnostics (golden actual : String)
  | image (golden actual : String)
  | listing (golden actual : String)
deriving DecidableEq, Repr

/-- What is said about a part; `difference` shows in what two lists of lines differ. -/
def Mismatch.text (difference : List String → List String → String) : Mismatch → String
  | .exitCode golden actual =>
    "Exit code mismatch:\n  - Golden: " ++ toString golden ++ "\n  - Actual: " ++
    toString actual ++ "\n"
  | .diagnostics golden actual =>
    "Diagnostics mismatch:\n" ++ difference (lines golden) (lines actual)
  | .image golden actual => "Image mismatch:\n" ++ difference (lines golden) (lines actual)
  | .listing golden actual => "Listing mismatch:\n" ++ difference (lines golden) (lines actual)

/-- The parts in which a compilation differs from the golden file. Images are compared by their
hashes, and a listing only if the golden file has one. -/
def mismatches (want got : Golden) (ignored : List String) : List Mismatch :=
  let wantMessages := filterLines want.compile.stderr ignored
  let gotMessages := filterLines got.compile.stderr ignored
  (if want.compile.exitCode != got.compile.exitCode then
      [.exitCode want.compile.exitCode got.compile.exitCode] else [])
    ++ (if wantMessages != gotMessages then [.diagnostics wantMessages gotMessages] else [])
    ++ (if want.imageHash != got.imageHash then [.image want.image got.image] else [])
    ++ (if want.listing != "" &&
      want.listing != got.listing then [.listing want.listing got.listing] else [])

/-- Compares a compilation with the golden file. -/
def compare (file : String) (want got : Golden) (ignored : List String)
    (difference : List String → List String → String := lineDiff) : TestResult :=
  let found := mismatches want got ignored
  if found.isEmpty then
    let message := if want.compile.exitCode != 0 then "Rejected with the expected diagnostics"
      else "Image matches the golden file"
    ⟨file, .pass, message, "", some want, some got⟩
  else
    ⟨file, .fail, "Compiler output differs from the golden file",
      String.join (found.map (Mismatch.text difference)), some want, some got⟩

/-! ## Storing -/

def number (n : Int) : Json := .number (toString n)

/-- A member that is left out if it is empty. -/
def optionalMember (name value : String) : List (String × Json) :=
  if value == "" then [] else [(name, .string value)]

def toJson (g : Golden) : Json :=
  .object ([("source_hash", .string g.sourceHash), ("compile",
    .object [("stderr", .string g.compile.stderr), ("exitCode", number g.compile.exitCode),
    ("duration", number g.compile.duration), ("timed_out", .boolean g.compile.timedOut)])]
    ++ optionalMember "image_hash" g.imageHash ++ optionalMember "image" g.image
    ++ optionalMember "listing" g.listing)

/-- The field that a member belongs to: one with the same name, or else with the same letters. -/
def fieldOf? (fields : List String) (name : String) : Option String :=
  if fields.contains name then some name else fields.find? (Text.sameLetters · name)

/-- Fills in a text; null leaves it as it is. -/
def fillText (old : String) : Json → Option String
  | .null => some old
  | .string s => some s
  | _ => none

/-- Fills in a whole number; null leaves it as it is. -/
def fillNumber (old : Int) : Json → Option Int
  | .null => some old
  | .number written => Text.word? written
  | _ => none

/-- Fills in a truth value; null leaves it as it is. -/
def fillBoolean (old : Bool) : Json → Option Bool
  | .null => some old
  | .boolean b => some b
  | _ => none

/-- Fills in one member of an execution; a member that is not known is passed over. -/
def fillExecution (e : Execution) (name : String) (v : Json) : Option Execution :=
  match fieldOf? ["stderr", "exitCode", "duration", "timed_out"] name with
  | some "stderr" => do return { e with stderr := ← fillText e.stderr v }
  | some "exitCode" => do return { e with exitCode := ← fillNumber e.exitCode v }
  | some "duration" => do return { e with duration := ← fillNumber e.duration v }
  | some "timed_out" => do return { e with timedOut := ← fillBoolean e.timedOut v }
  | _ => some e

/-- Fills in the members of an execution in order. -/
def fillExecutions (e : Execution) : Json → Option Execution
  | .null => some e
  | .object members => members.foldlM (fun e (name, v) => fillExecution e name v) e
  | _ => none

/-- Fills in one member of a golden file; a member that is not known is passed over. -/
def fillGolden (g : Golden) (name : String) (v : Json) : Option Golden :=
  match fieldOf? ["source_hash", "compile", "image_hash", "image", "listing"] name with
  | some "source_hash" => do return { g with sourceHash := ← fillText g.sourceHash v }
  | some "compile" => do return { g with compile := ← fillExecutions g.compile v }
  | some "image_hash" => do return { g with imageHash := ← fillText g.imageHash v }
  | some "image" => do return { g with image := ← fillText g.image v }
  | some "listing" => do return { g with listing := ← fillText g.listing v }
  | _ => some g

/-- The golden file that a value describes. -/
def ofJson? : Json → Option Golden
  | .null => some .blank
  | .object members => members.foldlM (fun g (name, v) => fillGolden g name v) .blank
  | _ => none

/-- The bytes of a golden file. -/
def write (g : Golden) : List UInt8 := Text.bytesOfText g.toJson.write

/-- Reads a golden file. -/
def read? (bytes : List UInt8) : Option Golden := (Json.read? bytes).bind ofJson?

end Golden

namespace TestResult

def toJson (r : TestResult) : Json :=
  let golden (name : String) (g : Option Golden) := (g.map fun g => (name, g.toJson)).toList
  .object ([("file", .string r.file), ("status", .string r.status.name)]
    ++ Golden.optionalMember "message" r.message ++ Golden.optionalMember "diff" r.diff
    ++ golden "expected" r.expected ++ golden "actual" r.actual)

end TestResult

end BilingualC
