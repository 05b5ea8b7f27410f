import BilingualC.Diagnostic
import BilingualC.Text.Fields

/-!
# Compiler options

Features change what the compiler accepts, warnings change what it mentions. Both are switched by
flags such as `-Fno-fold` or `-Woverflow`; a list of flags is read so that the flags for all
warnings act before the flags for single ones, wherever they stand.
-/

namespace BilingualC

/-! ## Features -/

/-- A part of the language or of the compiler that can be switched. -/
inductive Feature where
  | englishKeywords
  | russianKeywords
  | radixPrefixes
  | folding
  | lineComments
deriving DecidableEq, Repr

namespace Feature

/-- The features in the order of their numbers, which start at zero. -/
def all : List Feature :=
  [.englishKeywords, .russianKeywords, .radixPrefixes, .folding, .lineComments]

def number (f : Feature) : Nat := f.ctorIdx
def ofNumber? (n : Int) : Option Feature := if n < 0 then none else all[n.toNat]?

/-- The name of a feature in flags. -/
def name : Feature → String
  | .englishKeywords => "en-keywords"
  | .russianKeywords => "ru-keywords"
  | .radixPrefixes => "radix"
  | .folding => "fold"
  | .lineComments => "line-comments"

/-- The line of the help page about a feature. -/
def description : Feature → String
  | .englishKeywords => "Recognize English keyword spellings (int, while, ...)."
  | .russianKeywords => "Recognize Russian keyword spellings (цел, пока, ...)."
  | .radixPrefixes => "Allow 0x, 0o, 0b and 0d integer prefixes."
  | .folding => "Fold operations on constant operands while building the tree."
  | .lineComments => "Recognize '//' line comments."

def ofName? (text : String) : Option Feature := all.find? fun f => f.name == text

end Feature

/-- The state of the features. -/
structure Features where
  englishKeywords : Bool
  russianKeywords : Bool
  radixPrefixes : Bool
  folding : Bool
  lineComments : Bool
deriving DecidableEq, Repr

namespace Features

def initial : Features := ⟨true, true, true, true, true⟩

def get (fs : Features) : Feature → Bool
  | .englishKeywords => fs.englishKeywords
  | .russianKeywords => fs.russianKeywords
  | .radixPrefixes => fs.radixPrefixes
  | .folding => fs.folding
  | .lineComments => fs.lineComments

def set (fs : Features) (f : Feature) (on : Bool) : Features :=
  match f with
  | .englishKeywords => { fs with englishKeywords := on }
  | .russianKeywords => { fs with russianKeywords := on }
  | .radixPrefixes => { fs with radixPrefixes := on }
  | .folding => { fs with folding := on }
  | .lineComments => { fs with lineComments := on }

/-- Setting a feature changes that feature and no other. -/
theorem get_set (fs : Features) (f g : Feature) (on : Bool) :
    (fs.set f on).get g = if g = f then on else fs.get g := by
  cases f <;> cases g <;> rfl

end Features

/-! ## Warnings -/

/-- A remark that can be switched. -/
inductive Warning where
  | overflow
  | floatEquality
  | assignInCondition
  | pedantic
  | extra
deriving DecidableEq, Repr

namespace Warning

/-- The warnings in the order of their numbers, which start at zero. -/
def all : List Warning := [.overflow, .floatEquality, .assignInCondition, .pedantic, .extra]

def number (w : Warning) : Nat := w.ctorIdx
def ofNumber? (n : Int) : Option Warning := if n < 0 then none else all[n.toNat]?

/-- The name of a warning in flags. -/
def name : Warning → String
  | .overflow => "overflow"
  | .floatEquality => "float-equal"
  | .assignInCondition => "assign-in-cond"
  | .pedantic => "pedantic"
  | .extra => "extra"

/-- The line of the help page about a warning. -/
def description : Warning → String
  | .overflow => "Warn when an integer constant is too large or constant folding overflows int."
  | .floatEquality => "Warn when floating values are compared with == or !=."
  | .assignInCondition => "Warn when an assignment is used as a condition."
  | .pedantic => "Issue all warnings demanded by the strict standard."
  | .extra => "Enable extra miscellaneous warnings."

def ofName? (text : String) : Option Warning := all.find? fun w => w.name == text

end Warning

/-- The state of the warnings. -/
structure Warnings where
  overflow : Bool
  floatEquality : Bool
  assignInCondition : Bool
  pedantic : Bool
  extra : Bool
deriving DecidableEq, Repr

namespace Warnings

def initial : Warnings := ⟨true, true, false, false, true⟩

def get (ws : Warnings) : Warning → Bool
  | .overflow => ws.overflow
  | .floatEquality => ws.floatEquality
  | .assignInCondition => ws.assignInCondition
  | .pedantic => ws.pedantic
  | .extra => ws.extra

def set (ws : Warnings) (w : Warning) (on : Bool) : Warnings :=
  match w with
  | .overflow => { ws with overflow := on }
  | .floatEquality => { ws with floatEquality := on }
  | .assignInCondition => { ws with assignInCondition := on }
  | .pedantic => { ws with pedantic := on }
  | .extra => { ws with extra := on }

/-- Setting a warning changes that warning and no other. -/
theorem get_set (ws : Warnings) (w v : Warning) (on : Bool) :
    (ws.set w on).get v = if v = w then on else ws.get v := by
  cases w <;> cases v <;> rfl

end Warnings

/-! ## Options -/

/-- The keyword sets of the language. -/
inductive Standard where
  | bilingual
  | englishOnly
  | russianOnly
deriving DecidableEq, Repr

namespace Standard

def name : Standard → String
  | .bilingual => "ruc"
  | .englishOnly => "ruc-en"
  | .russianOnly => "ruc-ru"

/-- The standard with a given name; no name means the bilingual one. -/
def ofName? (text : String) : Option Standard :=
  if text == "ruc" || text == "" then some .bilingual
  else if text == "ruc-en" then some .englishOnly
  else if text == "ruc-ru" then some .russianOnly
  else none

end Standard

namespace Language

def name : Language → String
  | .russian => "ru"
  | .english => "en"

def ofName? (text : String) : Option Language :=
  if text == "ru" then some .russian else if text == "en" then some .english else none

end Language

/-- Everything that can be chosen about a compilation. -/
structure Options where
  features : Features
  warnings : Warnings
  standard : Standard
  language : Language
  /-- The name of the image format. -/
  backend : String
  maxThreads : Int
deriving DecidableEq, Repr

/-- Why a choice is refused. -/
inductive OptionError where
  | unknownStandard (name : String)
  | unknownLanguage (name : String)
deriving DecidableEq, Repr

def OptionError.message : OptionError → String
  | .unknownStandard name =>
    "unsupported standard '" ++ name ++ "'. Supported: 'ruc', 'ruc-en', 'ruc-ru'"
  | .unknownLanguage name =>
    "unsupported diagnostic language '" ++ name ++ "'. Supported: 'ru', 'en'"

namespace Options

/-- The options before anything is chosen. -/
def initial : Options := ⟨.initial, .initial, .bilingual, .russian, "vm", 1⟩

def setFeature (o : Options) (f : Feature) (on : Bool) : Options :=
  { o with features := o.features.set f on }

def setWarning (o : Options) (w : Warning) (on : Bool) : Options :=
  { o with warnings := o.warnings.set w on }

/-- Chooses the keyword sets. Under the pedantic warning the choice also forbids radix prefixes and
turns on the warning about assignments in conditions. -/
def withStandard (o : Options) (s : Standard) : Options :=
  let o := { (o.setFeature .englishKeywords (s != .russianOnly)).setFeature .russianKeywords
    (s != .englishOnly) with standard := s }
  if o.warnings.pedantic then (o.setFeature .radixPrefixes false).setWarning .assignInCondition true
  else o

/-- Chooses the keyword sets by name. -/
def chooseStandard (o : Options) (name : String) : Except OptionError Options :=
  match Standard.ofName? name with
  | some s => .ok (o.withStandard s)
  | none => .error (.unknownStandard name)

/-- Chooses the language of messages by name. -/
def chooseLanguage (o : Options) (name : String) : Except OptionError Options :=
  match Language.ofName? name with
  | some language => .ok { o with language }
  | none => .error (.unknownLanguage name)

/-! ## Flags -/

/-- What one flag asks for. -/
inductive Flag where
  | feature (f : Feature) (on : Bool)
  | warning (w : Warning) (on : Bool)
  | allWarnings (on : Bool)
deriving DecidableEq, Repr

/-- Reads one of `-F<name>`, `-Fno-<name>`, `-W<name>` and `-Wno-<name>`. The dash may be missing,
and a name without a group letter is that of a warning. -/
def Flag.ofText? (text : String) : Option Flag :=
  let body := Text.dropStart "-" text
  let isFeature := Text.startsWith "F" body
  let body := if isFeature || Text.startsWith "W" body then (body.drop 1).toString else body
  let (name, off) := Text.cutStart "no-" body
  if isFeature then (Feature.ofName? name).map (.feature · (!off))
  else if name == "all" then some (.allWarnings (!off))
  else (Warning.ofName? name).map (.warning · (!off))

/-- Does what one flag asks for. Switching all warnings leaves the pedantic one alone. -/
def applyFlag (o : Options) : Flag → Options
  | .feature f on => o.setFeature f on
  | .warning w on => o.setWarning w on
  | .allWarnings on =>
    (Warning.all.filter (· != .pedantic)).foldl (fun o w => o.setWarning w on) o

/-- Does what one flag text asks for; an unknown text asks for nothing. -/
def applyText (o : Options) (text : String) : Options :=
  match Flag.ofText? text with
  | some flag => o.applyFlag flag
  | none => o

/-- Says whether a flag is one of those that act before the others. -/
def isGlobalFlag (text : String) : Bool :=
  let name := Text.dropStart "-" text
  name == "Wall" || name == "Wno-all" || name == "pedantic"

/-- Does what a list of flags asks for: first the flags for all warnings, then the others. -/
def applyFlags (o : Options) (flags : List String) : Options :=
  (flags.filter (!isGlobalFlag ·)).foldl applyText ((flags.filter isGlobalFlag).foldl applyText o)

end Options

end BilingualC
