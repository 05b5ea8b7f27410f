import Mathlib
import BilingualC.Options
import BilingualC.Proofs.Path

/-!
# The last flag wins

A list of flags is read by what it names, not by where it stands: every warning and every feature
has the state that the last flag naming it asks for. Only if there is none, a warning follows the
last flag for all warnings, and only if there is none of these either, it stays as it was.

Main results:
1. `Options.Flag.ofText?_warning`, `Options.Flag.ofText?_feature`, `Options.Flag.ofText?_all`: which
  texts are read as which flags.
2. `Options.applyFlags_last`: what a list of flags makes of the options.
-/

namespace BilingualC

namespace Text

variable {start s : String}

theorem afterStart?_append (start rest : String) :
    afterStart? start.toList (start ++ rest).toList = some rest.toList :=
  afterStart?_eq_some_iff.mpr String.toList_append

theorem cutStart_append (start rest : String) : cutStart start (start ++ rest) = (rest, true) := by
  rw [cutStart, afterStart?_append]
  simp

theorem cutStart_of_not (other : startsWith start s = false) : cutStart start s = (s, false) := by
  rw [startsWith, Option.isSome_eq_false_iff, Option.isNone_iff_eq_none] at other
  rw [cutStart, other]

theorem startsWith_append (start rest : String) : startsWith start (start ++ rest) = true := by
  rw [startsWith, afterStart?_append, Option.isSome_some]

/-- A text begins with another one, or cutting that off leaves it as it is. -/
theorem cutStart_cases (start s : String) :
    (∃ rest, s = start ++ rest ∧ cutStart start s = (rest, true)) ∨
      startsWith start s = false ∧ cutStart start s = (s, false) := by
  cases found : afterStart? start.toList s.toList with
  | some rest =>
    have same : s = start ++ String.ofList rest :=
      String.toList_inj.mp (by simpa using afterStart?_eq_some_iff.mp found)
    exact .inl ⟨_, same, by rw [same, cutStart_append]⟩
  | none =>
    have other : startsWith start s = false := by simp [startsWith, found]
    exact .inr ⟨other, cutStart_of_not other⟩

end Text

namespace Options

open Text

/-! ## Flags and their texts -/

/-- A name as it stands in a flag that switches on or off. -/
def switchName (name : String) (on : Bool) : String := if on then name else "no-" ++ name

/-- A flag with and without its dash. -/
def dashed (body : String) : List String := ["-" ++ body, body]

namespace Flag

/-- The flags that ask for the same thing, without their dash. -/
def bodies : Flag → List String
  | .feature f on => ["F" ++ switchName f.name on]
  | .warning w on => ["W" ++ switchName w.name on, switchName w.name on]
  | .allWarnings on => ["W" ++ switchName "all" on, switchName "all" on]

/-- The flags that ask for the same thing. -/
def texts (flag : Flag) : List String := flag.bodies.flatMap dashed

/-- Reads the name in a flag, of a feature or of a warning. -/
def ofName? (isFeature : Bool) (text : String) : Option Flag :=
  let (name, off) := cutStart "no-" text
  if isFeature then (Feature.ofName? name).map (.feature · (!off))
  else if name == "all" then some (.allWarnings (!off))
  else (Warning.ofName? name).map (.warning · (!off))

/-- Reads a flag without its dash. -/
def ofBody? (body : String) : Option Flag :=
  let isFeature := startsWith "F" body
  ofName? isFeature
    (if isFeature || startsWith "W" body then (body.drop 1).toString else body)

theorem ofText?_eq (text : String) : ofText? text = ofBody? (dropStart "-" text) := rfl

theorem drop_singleton (c : Char) (rest : String) :
    ((String.singleton c ++ rest).drop 1).toString = rest := by
  apply String.toList_inj.mp
  simp

theorem ofBody?_feature (text : String) : ofBody? ("F" ++ text) = ofName? true text := by
  have dropped : (("F" ++ text).drop 1).toString = text := drop_singleton 'F' text
  simp only [ofBody?, startsWith_append, Bool.true_or, if_true, dropped]

theorem ofBody?_warning (text : String) : ofBody? ("W" ++ text) = ofName? false text := by
  have dropped : (("W" ++ text).drop 1).toString = text := drop_singleton 'W' text
  have other : startsWith "F" ("W" ++ text) = false := by simp [startsWith, afterStart?]
  simp only [ofBody?, other, startsWith_append, Bool.false_or, if_true, dropped]

theorem ofBody?_plain {body : String} (noFeature : startsWith "F" body = false)
    (noWarning : startsWith "W" body = false) : ofBody? body = ofName? false body := by
  simp [ofBody?, noFeature, noWarning]

/-- What a name with a polarity is read as. -/
theorem ofName?_switchName {name : String} (plain : startsWith "no-" name = false)
    (isFeature on : Bool) : ofName? isFeature (switchName name on) =
      if isFeature then (Feature.ofName? name).map (.feature · on)
      else if name == "all" then some (.allWarnings on)
      else (Warning.ofName? name).map (.warning · on) := by
  cases on with
  | true => simp [ofName?, switchName, cutStart_of_not plain]
  | false => simp [ofName?, switchName, cutStart_append]

theorem ofName?_feature (f : Feature) (on : Bool) :
    ofName? true (switchName f.name on) = some (.feature f on) := by
  have plain : startsWith "no-" f.name = false := by cases f <;> decide
  have named : Feature.ofName? f.name = some f := by cases f <;> decide
  rw [ofName?_switchName plain, if_pos rfl, named, Option.map_some]

theorem ofName?_warning (w : Warning) (on : Bool) :
    ofName? false (switchName w.name on) = some (.warning w on) := by
  have plain : startsWith "no-" w.name = false := by cases w <;> decide
  have named : Warning.ofName? w.name = some w := by cases w <;> decide
  have single : (w.name == "all") = false := by cases w <;> decide
  rw [ofName?_switchName plain, single, named, Option.map_some]
  rfl

theorem ofName?_all (on : Bool) : ofName? false (switchName "all" on) = some (.allWarnings on) := by
  rw [ofName?_switchName (by decide)]
  rfl

/-- A name that is read is that of the flag. -/
theorem eq_of_ofName? {isFeature : Bool} {text : String} {flag : Flag}
    (read : ofName? isFeature text = some flag) :
    match flag with
    | .feature f on => isFeature = true ∧ text = switchName f.name on
    | .warning w on => isFeature = false ∧ text = switchName w.name on
    | .allWarnings on => isFeature = false ∧ text = switchName "all" on := by
  obtain ⟨name, off, same, cut⟩ :
      ∃ name off, text = switchName name (!off) ∧ cutStart "no-" text = (name, off) := by
    rcases cutStart_cases "no-" text with ⟨rest, same, cut⟩ | ⟨-, cut⟩
    · exact ⟨rest, true, same, cut⟩
    · exact ⟨text, false, rfl, cut⟩
  simp only [ofName?, cut] at read
  split at read
  next isFeature =>
    obtain ⟨f, found, rfl⟩ := Option.map_eq_some_iff.mp read
    have named : f.name = name := by simpa using List.find?_some found
    exact ⟨isFeature, named ▸ same⟩
  next other =>
    have other : isFeature = false := by simpa using other
    split at read
    next all =>
      obtain rfl := Option.some_inj.mp read
      exact ⟨other, eq_of_beq all ▸ same⟩
    next =>
      obtain ⟨w, found, rfl⟩ := Option.map_eq_some_iff.mp read
      have named : w.name = name := by simpa using List.find?_some found
      exact ⟨other, named ▸ same⟩

/-- The name of a warning, with or without a polarity, has no group letter. -/
theorem ofBody?_switchName {name : String} (noFeature : startsWith "F" name = false)
    (noWarning : startsWith "W" name = false) (on : Bool) :
    ofBody? (switchName name on) = ofName? false (switchName name on) := by
  cases on with
  | true => exact ofBody?_plain noFeature noWarning
  | false =>
    exact ofBody?_plain (by simp [switchName, startsWith, afterStart?])
      (by simp [switchName, startsWith, afterStart?])

theorem ofBody?_eq_some_iff {body : String} {flag : Flag} :
    ofBody? body = some flag ↔ body ∈ flag.bodies := by
  constructor
  · intro read
    rcases cutStart_cases "F" body with ⟨rest, rfl, -⟩ | ⟨noFeature, -⟩
    · rw [ofBody?_feature] at read
      have named := eq_of_ofName? read
      cases flag with
      | feature f on => simp [bodies, named.2]
      | _ => cases named.1
    · rcases cutStart_cases "W" body with ⟨rest, rfl, -⟩ | ⟨noWarning, -⟩
      · rw [ofBody?_warning] at read
        have named := eq_of_ofName? read
        cases flag with
        | feature f on => cases named.1
        | _ => simp [bodies, named.2]
      · rw [ofBody?_plain noFeature noWarning] at read
        have named := eq_of_ofName? read
        cases flag with
        | feature f on => cases named.1
        | _ => simp [bodies, named.2]
  · intro mem
    cases flag with
    | feature f on =>
      obtain rfl := List.mem_singleton.mp mem
      rw [ofBody?_feature, ofName?_feature]
    | warning w on =>
      have noFeature : startsWith "F" w.name = false := by cases w <;> decide
      have noWarning : startsWith "W" w.name = false := by cases w <;> decide
      rcases List.mem_pair.mp mem with rfl | rfl
      · rw [ofBody?_warning, ofName?_warning]
      · rw [ofBody?_switchName noFeature noWarning, ofName?_warning]
    | allWarnings on =>
      rcases List.mem_pair.mp mem with rfl | rfl
      · rw [ofBody?_warning, ofName?_all]
      · rw [ofBody?_switchName (by decide) (by decide), ofName?_all]

end Flag

/-- A flag is the same with and without its dash. -/
theorem mem_dashed_iff {body text : String} (plain : startsWith "-" body = false) :
    text ∈ dashed body ↔ dropStart "-" text = body := by
  rw [dashed, List.mem_pair, dropStart]
  constructor
  · rintro (rfl | rfl)
    · rw [cutStart_append]
    · rw [cutStart_of_not plain]
  · rcases cutStart_cases "-" text with ⟨rest, rfl, cut⟩ | ⟨-, cut⟩
    · rw [cut]
      rintro rfl
      exact .inl rfl
    · rw [cut]
      exact .inr

theorem Flag.mem_texts_iff {flag : Flag} {text : String} :
    text ∈ flag.texts ↔ dropStart "-" text ∈ flag.bodies := by
  have plain : ∀ body ∈ flag.bodies, startsWith "-" body = false := by
    have name (w : Warning) : startsWith "-" w.name = false := by cases w <;> decide
    intro body mem
    cases flag with
    | feature f on =>
      obtain rfl := List.mem_singleton.mp mem
      simp [startsWith, afterStart?]
    | warning w on =>
      rcases List.mem_pair.mp mem with rfl | rfl
      · simp [startsWith, afterStart?]
      · cases on with
        | true => exact name w
        | false => simp [switchName, startsWith, afterStart?]
    | allWarnings on =>
      rcases List.mem_pair.mp mem with rfl | rfl
      · simp [startsWith, afterStart?]
      · cases on <;> decide
  rw [Flag.texts, List.mem_flatMap]
  constructor
  · rintro ⟨body, mem, inside⟩
    rwa [(mem_dashed_iff (plain body mem)).mp inside]
  · intro mem
    exact ⟨_, mem, (mem_dashed_iff (plain _ mem)).mpr rfl⟩

/-- A text is read as a flag exactly if it is one of its texts. -/
theorem Flag.ofText?_eq_some_iff {flag : Flag} {text : String} :
    Flag.ofText? text = some flag ↔ text ∈ flag.texts := by
  rw [Flag.ofText?_eq, Flag.ofBody?_eq_some_iff, Flag.mem_texts_iff]

/-! ## Lists of flags -/

/-- What a flag asks of a warning. The flags for all warnings say nothing about the pedantic one. -/
def Flag.asksWarning (w : Warning) : Flag → Option Bool
  | .warning v on => if w = v then some on else none
  | .allWarnings on => if w = .pedantic then none else some on
  | .feature _ _ => none

/-- What a flag asks of a feature. -/
def Flag.asksFeature (f : Feature) : Flag → Option Bool
  | .feature g on => if f = g then some on else none
  | _ => none

theorem warning_applyFlag (o : Options) (w : Warning) (flag : Flag) :
    (o.applyFlag flag).warnings.get w = (flag.asksWarning w).getD (o.warnings.get w) := by
  cases flag with
  | feature f on => rfl
  | warning v on =>
    simp only [applyFlag, setWarning, Warnings.get_set, Flag.asksWarning]
    split <;> rfl
  | allWarnings on => cases w <;> rfl

theorem feature_applyFlag (o : Options) (f : Feature) (flag : Flag) :
    (o.applyFlag flag).features.get f = (flag.asksFeature f).getD (o.features.get f) := by
  cases flag with
  | feature g on =>
    simp only [applyFlag, setFeature, Features.get_set, Flag.asksFeature]
    split <;> rfl
  | warning v on => rfl
  | allWarnings on => rfl

/-- A text that is read as no flag changes nothing. -/
theorem applyText_eq (o : Options) (text : String) :
    o.applyText text = ((Flag.ofText? text).map o.applyFlag).getD o := by
  delta applyText
  cases Flag.ofText? text <;> rfl

/-- The last answer that a list of flags gives. -/
def lastAnswer (asks : String → Option Bool) (flags : List String) : Option Bool :=
  flags.reverse.findSome? asks

theorem lastAnswer_concat (asks : String → Option Bool) (flags : List String) (t : String) :
    lastAnswer asks (flags ++ [t]) = (asks t).or (lastAnswer asks flags) := by
  rw [lastAnswer, List.reverse_append, List.reverse_singleton, List.singleton_append,
    List.findSome?_cons, lastAnswer]
  cases asks t <;> rfl

theorem lastAnswer_filter (asks : String → Option Bool) (p : String → Bool)
    (flags : List String) : lastAnswer asks (flags.filter p) =
      lastAnswer (fun t => if p t then asks t else none) flags := by
  induction flags using List.reverseRecOn with
  | nil => rfl
  | append_singleton flags t ih =>
    rw [List.filter_append, lastAnswer_concat, ← ih]
    cases here : p t with
    | true => simp [here, lastAnswer_concat]
    | false => simp [here]

theorem lastAnswer_congr {asks asks' : String → Option Bool} {flags : List String}
    (same : ∀ t ∈ flags, asks t = asks' t) : lastAnswer asks flags = lastAnswer asks' flags := by
  induction flags using List.reverseRecOn with
  | nil => rfl
  | append_singleton flags t ih =>
    rw [lastAnswer_concat, lastAnswer_concat, same t (by simp),
      ih fun u mem => same u (List.mem_append_left _ mem)]

/-- What a flag asks of something is done, and the flags that act first do not count where a later
one asks for something. -/
theorem get_applyFlags (get : Options → Bool) {asks : Flag → Option Bool}
    (step : ∀ o flag, get (o.applyFlag flag) = (asks flag).getD (get o)) (o : Options)
    (flags : List String) : get (o.applyFlags flags) =
      (lastAnswer (fun t => if !isGlobalFlag t then (Flag.ofText? t).bind asks else none)
        flags).getD ((lastAnswer (fun t => if isGlobalFlag t then (Flag.ofText? t).bind asks
          else none) flags).getD (get o)) := by
  have pass (o : Options) (flags : List String) : get (flags.foldl applyText o) =
      (lastAnswer (fun t => (Flag.ofText? t).bind asks) flags).getD (get o) := by
    induction flags using List.reverseRecOn with
    | nil => rfl
    | append_singleton flags t ih =>
      rw [List.foldl_concat, applyText_eq, lastAnswer_concat]
      cases Flag.ofText? t with
      | none => simpa using ih
      | some flag =>
        rw [Option.map_some, Option.getD_some, step, ih, Option.bind_some]
        cases asks flag <;> rfl
  rw [applyFlags, pass, pass, lastAnswer_filter, lastAnswer_filter]

/-- The polarity of the last flag with one of the texts for it. -/
def lastNamed (texts : Bool → List String) (flags : List String) : Option Bool :=
  lastAnswer (fun t => if t ∈ texts true then some true else if t ∈ texts false then some false
    else none) flags

theorem lastAnswer_eq_lastNamed {asks : String → Option Bool} {texts : Bool → List String}
    {flags : List String} (named : ∀ t ∈ flags, ∀ on, asks t = some on ↔ t ∈ texts on) :
    lastAnswer asks flags = lastNamed texts flags := by
  refine lastAnswer_congr fun t mem => ?_
  have named := named t mem
  cases asked : asks t with
  | none =>
    have other (on : Bool) : t ∉ texts on := fun inside => by
      cases asked.symm.trans ((named on).mpr inside)
    rw [if_neg (other true), if_neg (other false)]
  | some on =>
    have inside := (named on).mp asked
    cases on with
    | true => rw [if_pos inside]
    | false =>
      have other : t ∉ texts true := fun inside => by
        cases asked.symm.trans ((named true).mpr inside)
      rw [if_neg other, if_pos inside]

/-! ## The rule of the last flag -/

/-- The flags for all warnings that act before those for single ones. -/
def wallTexts (on : Bool) : List String := dashed (if on then "Wall" else "Wno-all")

/-- The flags for the pedantic warning that count wherever they stand. -/
def strictTexts (on : Bool) : List String :=
  if on then dashed "Wpedantic" else dashed "Wno-pedantic" ++ dashed "no-pedantic"

theorem texts_wall (on : Bool) :
    (Flag.allWarnings on).texts = wallTexts on ++ dashed (switchName "all" on) := by
  have wall : "W" ++ switchName "all" on = if on then "Wall" else "Wno-all" := by
    cases on <;> decide
  simp [Flag.texts, Flag.bodies, wall, wallTexts]

theorem texts_pedantic (on : Bool) :
    (Flag.warning .pedantic on).texts = strictTexts on ++ if on then dashed "pedantic" else [] := by
  have plain : switchName Warning.pedantic.name on = if on then "pedantic" else "no-pedantic" := by
    cases on <;> decide
  cases on <;> simp [Flag.texts, Flag.bodies, plain, strictTexts]

/-- Two flags have no text in common. -/
theorem Flag.eq_of_mem_texts {a b : Flag} {text : String} (first : text ∈ a.texts)
    (second : text ∈ b.texts) : a = b :=
  Option.some_inj.mp
    ((Flag.ofText?_eq_some_iff.2 first).symm.trans (Flag.ofText?_eq_some_iff.2 second))

/-- The flags that act before the others: those for all warnings and the bare one for the pedantic
warning. -/
def ActsFirst (text : String) : Prop := (∃ on, text ∈ wallTexts on) ∨ text ∈ dashed "pedantic"

theorem isGlobalFlag_iff {text : String} : isGlobalFlag text = true ↔ ActsFirst text := by
  rw [ActsFirst, Bool.exists_bool, wallTexts, wallTexts, if_neg Bool.false_ne_true, if_pos rfl,
    mem_dashed_iff (by decide), mem_dashed_iff (by decide), mem_dashed_iff (by decide)]
  simp [isGlobalFlag, or_comm, or_left_comm]

/-- What the flags that act first are read as. -/
theorem first_iff {flag : Flag} {text : String} :
    isGlobalFlag text = true ∧ text ∈ flag.texts ↔
      (∃ on, flag = .allWarnings on ∧ text ∈ wallTexts on) ∨
      flag = .warning .pedantic true ∧ text ∈ dashed "pedantic" := by
  have wall {on : Bool} (mem : text ∈ wallTexts on) : text ∈ (Flag.allWarnings on).texts := by
    rw [texts_wall]
    exact List.mem_append_left _ mem
  have bare (mem : text ∈ dashed "pedantic") : text ∈ (Flag.warning .pedantic true).texts := by
    rw [texts_pedantic]
    exact List.mem_append_right _ mem
  rw [isGlobalFlag_iff]
  constructor
  · rintro ⟨⟨on, mem⟩ | mem, named⟩
    · exact .inl ⟨on, Flag.eq_of_mem_texts named (wall mem), mem⟩
    · exact .inr ⟨Flag.eq_of_mem_texts named (bare mem), mem⟩
  · rintro (⟨on, rfl, mem⟩ | ⟨rfl, mem⟩)
    · exact ⟨.inl ⟨on, mem⟩, wall mem⟩
    · exact ⟨.inr mem, bare mem⟩

theorem Flag.asksWarning_eq_some_iff {w : Warning} {flag : Flag} {on : Bool} :
    flag.asksWarning w = some on ↔
      flag = .warning w on ∨ w ≠ .pedantic ∧ flag = .allWarnings on := by
  cases flag <;> simp [Flag.asksWarning, eq_comm]

theorem Flag.asksFeature_eq_some_iff {f : Feature} {flag : Flag} {on : Bool} :
    flag.asksFeature f = some on ↔ flag = .feature f on := by
  cases flag <;> simp [Flag.asksFeature, eq_comm]

/-- What the texts of one pass ask for. -/
theorem asked_iff {asks : Flag → Option Bool} {pass : Bool} {text : String} {on : Bool} :
    (if pass then (Flag.ofText? text).bind asks else none) = some on ↔
      ∃ flag, (pass = true ∧ text ∈ flag.texts) ∧ asks flag = some on := by
  rw [Option.ite_none_right_eq_some, Option.bind_eq_some_iff]
  simp only [Flag.ofText?_eq_some_iff, and_assoc, exists_and_left]

variable {flags : List String}

/-- A list of flags without the flags for all warnings that act where they stand. -/
def Plain (flags : List String) : Prop := ∀ t ∈ flags, t ∉ ["all", "no-all", "-all", "-no-all"]

theorem Plain.not_loose (plain : Plain flags) {t : String} (mem : t ∈ flags) (on : Bool) :
    t ∉ dashed (switchName "all" on) := by
  have other := plain t mem
  cases on <;> simp_all [dashed, switchName]

/-- A warning besides the pedantic one follows the last flag that names it, else the last flag for
all warnings. -/
theorem warning_applyFlags (o : Options) (plain : Plain flags) {w : Warning}
    (single : w ≠ .pedantic) :
    (o.applyFlags flags).warnings.get w =
      (lastNamed (fun on => (Flag.warning w on).texts) flags).getD
        ((lastNamed wallTexts flags).getD (o.warnings.get w)) := by
  have later : ∀ t ∈ flags, ∀ on,
      (if !isGlobalFlag t then (Flag.ofText? t).bind (Flag.asksWarning w) else none) = some on ↔
        t ∈ (Flag.warning w on).texts := by
    intro t mem on
    rw [asked_iff, Bool.not_eq_true']
    constructor
    · rintro ⟨flag, ⟨later, named⟩, asked⟩
      rcases Flag.asksWarning_eq_some_iff.1 asked with rfl | ⟨-, rfl⟩
      · exact named
      · -- A flag for all warnings acts first, or its text was excluded.
        rw [texts_wall, List.mem_append] at named
        have first := isGlobalFlag_iff.2
          (.inl ⟨on, named.resolve_right (plain.not_loose mem on)⟩)
        cases later.symm.trans first
    · intro named
      refine ⟨_, ⟨?_, named⟩, Flag.asksWarning_eq_some_iff.2 (.inl rfl)⟩
      refine Bool.eq_false_iff.mpr fun first => ?_
      rcases first_iff.1 ⟨first, named⟩ with ⟨_, same, -⟩ | ⟨same, -⟩
      · cases same
      · exact single (Flag.warning.inj same).1
  have first : ∀ t ∈ flags, ∀ on,
      (if isGlobalFlag t then (Flag.ofText? t).bind (Flag.asksWarning w) else none) = some on ↔
        t ∈ wallTexts on := by
    intro t _ on
    rw [asked_iff]
    constructor
    · rintro ⟨flag, here, asked⟩
      rcases Flag.asksWarning_eq_some_iff.1 asked with rfl | ⟨-, rfl⟩ <;>
        rcases first_iff.1 here with ⟨_, same, mem⟩ | ⟨same, mem⟩ <;> cases same
      · exact absurd rfl single
      · exact mem
    · intro mem
      exact ⟨_, first_iff.2 (.inl ⟨on, rfl, mem⟩),
        Flag.asksWarning_eq_some_iff.2 (.inr ⟨single, rfl⟩)⟩
  rw [get_applyFlags (·.warnings.get w) (fun o flag => warning_applyFlag o w flag) o,
    lastAnswer_eq_lastNamed later, lastAnswer_eq_lastNamed first]

/-- The pedantic warning follows the last flag that names it with a group letter or switches it off,
and only then the bare flag. -/
theorem pedantic_applyFlags (o : Options) (flags : List String) :
    (o.applyFlags flags).warnings.get .pedantic = (lastNamed strictTexts flags).getD
      (flags.any (· ∈ dashed "pedantic") || o.warnings.get .pedantic) := by
  -- the bare flag is taken in first of all, the others in their turn
  have later : ∀ t ∈ flags, ∀ on,
      (if !isGlobalFlag t then (Flag.ofText? t).bind (Flag.asksWarning .pedantic) else none) =
        some on ↔ t ∈ strictTexts on := by
    intro t _ on
    rw [asked_iff, Bool.not_eq_true']
    constructor
    · rintro ⟨flag, ⟨later, named⟩, asked⟩
      rcases Flag.asksWarning_eq_some_iff.1 asked with rfl | ⟨other, -⟩
      · rw [texts_pedantic, List.mem_append] at named
        refine named.resolve_right fun bare => ?_
        cases on with
        | true => cases later.symm.trans (isGlobalFlag_iff.2 (.inr bare))
        | false => cases bare
      · exact absurd rfl other
    · intro mem
      have named : t ∈ (Flag.warning .pedantic on).texts := by
        rw [texts_pedantic]
        exact List.mem_append_left _ mem
      refine ⟨_, ⟨?_, named⟩, Flag.asksWarning_eq_some_iff.2 (.inl rfl)⟩
      refine Bool.eq_false_iff.mpr fun first => ?_
      rcases first_iff.1 ⟨first, named⟩ with ⟨_, same, -⟩ | ⟨same, bare⟩ <;> cases same
      rw [strictTexts, if_pos rfl, mem_dashed_iff (by decide)] at mem
      rw [mem_dashed_iff (by decide), mem] at bare
      exact absurd bare (by decide)
  have first : ∀ t ∈ flags, ∀ on,
      (if isGlobalFlag t then (Flag.ofText? t).bind (Flag.asksWarning .pedantic) else none) =
        some on ↔ t ∈ if on then dashed "pedantic" else [] := by
    intro t _ on
    rw [asked_iff]
    constructor
    · rintro ⟨flag, here, asked⟩
      rcases Flag.asksWarning_eq_some_iff.1 asked with rfl | ⟨other, -⟩
      · rcases first_iff.1 here with ⟨_, same, mem⟩ | ⟨same, mem⟩ <;> cases same
        exact mem
      · exact absurd rfl other
    · intro mem
      cases on with
      | true =>
        exact ⟨_, first_iff.2 (.inr ⟨rfl, mem⟩), Flag.asksWarning_eq_some_iff.2 (.inl rfl)⟩
      | false => cases mem
  -- the bare flag only switches on, so its last use counts as any use
  have bare (flags : List String) : (lastNamed (fun on => if on then dashed "pedantic" else [])
      flags).getD (o.warnings.get .pedantic) =
        (flags.any (· ∈ dashed "pedantic") || o.warnings.get .pedantic) := by
    induction flags using List.reverseRecOn with
    | nil => rfl
    | append_singleton flags t ih =>
      rw [lastNamed, lastAnswer_concat, List.any_append]
      by_cases here : t ∈ dashed "pedantic"
      · simp [here]
      · simpa [here, lastNamed] using ih
  rw [get_applyFlags (·.warnings.get .pedantic)
    (fun o flag => warning_applyFlag o .pedantic flag) o, lastAnswer_eq_lastNamed later,
    lastAnswer_eq_lastNamed first, bare]

/-- A feature follows the last flag that names it. -/
theorem feature_applyFlags (o : Options) (flags : List String) (f : Feature) :
    (o.applyFlags flags).features.get f =
      (lastNamed (fun on => (Flag.feature f on).texts) flags).getD (o.features.get f) := by
  have later : ∀ t ∈ flags, ∀ on,
      (if !isGlobalFlag t then (Flag.ofText? t).bind (Flag.asksFeature f) else none) = some on ↔
        t ∈ (Flag.feature f on).texts := by
    intro t _ on
    rw [asked_iff, Bool.not_eq_true']
    constructor
    · rintro ⟨flag, ⟨-, named⟩, asked⟩
      rwa [Flag.asksFeature_eq_some_iff.1 asked] at named
    · intro named
      refine ⟨_, ⟨?_, named⟩, Flag.asksFeature_eq_some_iff.2 rfl⟩
      refine Bool.eq_false_iff.mpr fun first => ?_
      rcases first_iff.1 ⟨first, named⟩ with ⟨_, same, -⟩ | ⟨same, -⟩ <;> cases same
  have silent : ∀ t ∈ flags,
      (if isGlobalFlag t then (Flag.ofText? t).bind (Flag.asksFeature f) else none) = none := by
    intro t _
    refine Option.eq_none_iff_forall_ne_some.mpr fun on asked => ?_
    obtain ⟨flag, here, asked⟩ := asked_iff.1 asked
    obtain rfl := Flag.asksFeature_eq_some_iff.1 asked
    rcases first_iff.1 here with ⟨_, same, -⟩ | ⟨same, -⟩ <;> cases same
  have first : lastAnswer
      (fun t => if isGlobalFlag t then (Flag.ofText? t).bind (Flag.asksFeature f) else none) flags =
        none := by
    rw [lastAnswer_congr silent]
    simp [lastAnswer]
  rw [get_applyFlags (·.features.get f) (fun o flag => feature_applyFlag o f flag) o,
    lastAnswer_eq_lastNamed later, first]
  rfl

/-- **The last flag that names something decides.** Every warning besides the pedantic one has the
polarity of the last flag that names it, else that of the last flag for all warnings, else the one
it had. The pedantic warning follows the last flag that names it with a group letter or switches it
off, else it is on if the bare flag stands anywhere. Every feature follows the last flag that names
it. Other texts change nothing, and a flag that acts first may stand on either side of one that does
not. -/
theorem applyFlags_last (o : Options) (plain : Plain flags) :
    (∀ w, w ≠ .pedantic → (o.applyFlags flags).warnings.get w =
      (lastNamed (fun on => (Flag.warning w on).texts) flags).getD
        ((lastNamed wallTexts flags).getD (o.warnings.get w))) ∧
    (o.applyFlags flags).warnings.get .pedantic = (lastNamed strictTexts flags).getD
      (flags.any (· ∈ dashed "pedantic") || o.warnings.get .pedantic) ∧
    (∀ f, (o.applyFlags flags).features.get f =
      (lastNamed (fun on => (Flag.feature f on).texts) flags).getD (o.features.get f)) ∧
    (∀ before t after, (∀ flag : Flag, t ∉ flag.texts) →
      o.applyFlags (before ++ t :: after) = o.applyFlags (before ++ after)) ∧
    ∀ before first t after, ActsFirst first → ¬ ActsFirst t →
      o.applyFlags (before ++ first :: t :: after) =
        o.applyFlags (before ++ t :: first :: after) := by
  refine ⟨fun w single => warning_applyFlags o plain single, pedantic_applyFlags o flags,
    feature_applyFlags o flags, ?_, ?_⟩
  · intro before t after unknown
    have unread : Flag.ofText? t = none := by
      refine Option.eq_none_iff_forall_ne_some.mpr fun flag read => ?_
      exact unknown flag (Flag.ofText?_eq_some_iff.1 read)
    have skip (o : Options) : o.applyText t = o := by rw [applyText_eq, unread]; rfl
    cases first : isGlobalFlag t <;>
      simp [applyFlags, List.filter_append, first, skip]
  · intro before first t after isFirst isLater
    rw [← isGlobalFlag_iff] at isFirst isLater
    simp [applyFlags, List.filter_append, isFirst, isLater]

theorem applyFlags_last_mixed :
    let flags := ["-Wfloat-equal", "-Wno-all", "pedantic", "-Fno-fold", "-Wno-pedantic", "Wextra"]
    Plain flags ∧ ((Options.initial.applyFlags flags).warnings.get .floatEquality = true ∧
      (Options.initial.applyFlags flags).warnings.get .pedantic = false ∧
      (Options.initial.applyFlags flags).features.get .folding = false) := by
  intro flags
  have plain : Plain flags := by
    unfold Plain
    decide
  obtain ⟨warnings, pedantic, features, -, -⟩ := applyFlags_last .initial plain
  refine ⟨plain, ?_, ?_, ?_⟩
  · rw [warnings .floatEquality (by decide)]
    decide
  · rw [pedantic]
    decide
  · rw [features]
    decide

end Options

end BilingualC
