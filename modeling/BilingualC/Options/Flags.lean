import BilingualC.CommandLine
import BilingualC.Options

/-!
# Options on the command line

Every warning and every feature has a pair of flags. What the flags say is applied after reading: a
flag that switches on something that was on already asks for nothing, and a flag that switches off
wins over one that switches on.
-/

namespace BilingualC.Options

/-- The member of a flag group for something that is on or off. -/
def groupEntry (letter name usage : String) (on : Bool) : GroupEntry :=
  ⟨name, letter, usage, some on, some false, on⟩

/-- The flag group for the warnings. -/
def warningGroup (o : Options) : FlagGroup where
  title := "Warning flags"
  kind := "warning"
  entries := Warning.all.map fun w => groupEntry "W" w.name w.description (o.warnings.get w)

/-- The flag group for the features. -/
def featureGroup (o : Options) : FlagGroup where
  title := "Feature flags"
  kind := "feature"
  entries := Feature.all.map fun f => groupEntry "F" f.name f.description (o.features.get f)

/-- Defines the flags for the warnings and the features. -/
def defineGroups (o : Options) (c : CommandLine) : CommandLine × Option DefinitionError :=
  match c.addGroup o.warningGroup with
  | (c, none) => c.addGroup o.featureGroup
  | failed => failed

/-- What a pair of flags makes of something that is on or off. -/
def switched (c : CommandLine) (e : GroupEntry) (on : Bool) : Bool :=
  if c.isOn e.offName then false else if c.isOn e.onName && !e.default then true else on

/-- Applies the flags for the warnings and the features; `atStart` are the options for which the
flags were defined. -/
def applyGroups (o atStart : Options) (c : CommandLine) : Options :=
  let o := (Warning.all.zip atStart.warningGroup.entries).foldl
    (fun o (w, e) => o.setWarning w (switched c e (o.warnings.get w))) o
  (Feature.all.zip atStart.featureGroup.entries).foldl
    (fun o (f, e) => o.setFeature f (switched c e (o.features.get f))) o

end BilingualC.Options
