import Mathlib
import BilingualC.Golden
import BilingualC.Proofs.Golden.Tasks
import BilingualC.Proofs.Image.Cbor
import BilingualC.Proofs.Json

/-!
# What was recorded passes

If what the compiler gives is a function of its arguments and of the source, wherever the image
goes, and if it always has enough time, then testing finds what recording has stored. So every
recorded source passes unless it is left out because an earlier file has its hash. A golden file is
named for the last component of its source, so two sources can have one golden file between them;
then only the one that was recorded later can pass.

A golden file gives back what was stored, `Golden.read?_write`, if exit codes and times are words of
64 bits, as they are where they come from.

Main results:
1. `TestOptions.recordAll_stored`: what stands in the golden files after recording.
2. `TestOptions.run_recorded`: testing after recording.
3. `TestOptions.run_recorded_overwritten`: two sources with one golden file.
-/

namespace BilingualC

/-! ## Golden files are read back -/

namespace Text

theorem digitsValue_append (digits : List Char) (c : Char) :
    digitsValue (digits ++ [c]) = digitsValue digits * 10 + (c.toNat - '0'.toNat) := by
  rw [digitsValue, digitsValue, List.foldl_append, List.foldl_cons, List.foldl_nil]

theorem digitsValue_toDigits (n : Nat) : digitsValue (Nat.toDigits 10 n) = n := by
  have digit : ∀ d < 10, (Nat.digitChar d).toNat - '0'.toNat = d := by decide
  induction n using Nat.strongRecOn with
  | ind n ih =>
    rw [Nat.toDigits_eq_if (by decide)]
    split
    next small => simpa [digitsValue] using digit n small
    next large =>
      rw [digitsValue_append, ih (n / 10) (by omega), digit (n % 10) (by omega)]
      omega

theorem word?_toString {n : Int} (word : IsWord n) : word? (toString n) = some n := by
  have all (k : Nat) :
    ((Nat.toDigits 10 k).isEmpty || !(Nat.toDigits 10 k).all Char.isDigit) = false := by
    have some : Nat.toDigits 10 k ≠ [] := List.ne_nil_of_length_pos Nat.length_toDigits_pos
    have digits : (Nat.toDigits 10 k).all Char.isDigit = true :=
      List.all_eq_true.mpr fun c mem => Json.isDigit_toDigits mem
    simp [some, digits]
  obtain ⟨low, high⟩ : -9223372036854775808 ≤ n ∧ n ≤ 9223372036854775807 :=
    ⟨word.1, Int.le_sub_one_of_lt word.2⟩
  cases n with
  | ofNat k =>
    have chars : (toString (Int.ofNat k)).toList = Nat.toDigits 10 k := by
      have text : toString (Int.ofNat k) = k.repr := rfl
      rw [text, Nat.repr_eq_ofList_toDigits, String.toList_ofList]
    have sign : splitSign (Nat.toDigits 10 k) = (false, Nat.toDigits 10 k) := by
      have noSign : ∀ c ∈ Nat.toDigits 10 k, c ≠ '-' ∧ c ≠ '+' := fun c mem => by
        have digit : c.isDigit = true := Json.isDigit_toDigits mem
        constructor <;> rintro rfl <;> exact absurd digit (by decide)
      unfold splitSign
      split
      next split => exact absurd rfl (noSign '-' (by rw [split]; exact List.mem_cons_self)).1
      next split => exact absurd rfl (noSign '+' (by rw [split]; exact List.mem_cons_self)).2
      next => rfl
    have inside : (-9223372036854775808 : Int) ≤ k ∧ (k : Int) ≤ 9223372036854775807 := ⟨low, high⟩
    simp only [word?, chars, sign, all, digitsValue_toDigits, Bool.false_eq_true, if_false]
    simp [inside]
  | negSucc k =>
    have chars : (toString (Int.negSucc k)).toList = '-' :: Nat.toDigits 10 (k + 1) := by
      have text : toString (Int.negSucc k) = "-" ++ (k + 1).repr := rfl
      rw [text, String.toList_append, Nat.repr_eq_ofList_toDigits]
      simp
    have value : -((k + 1 : Nat) : Int) = Int.negSucc k := rfl
    simp only [word?, chars, splitSign, all, digitsValue_toDigits, Bool.false_eq_true, if_false,
      if_true, value]
    simp [low, high]

end Text

namespace Golden

theorem fillNumber_number {n : Int} (word : IsWord n) (old : Int) :
    fillNumber old (number n) = some n :=
  Text.word?_toString word

theorem fillExecutions_members {e : Execution} (exitCode : IsWord e.exitCode)
    (duration : IsWord e.duration) (old : Execution) :
    fillExecutions old (.object [("stderr", .string e.stderr), ("exitCode", number e.exitCode),
      ("duration", number e.duration), ("timed_out", .boolean e.timedOut)]) = some e := by
  simp [fillExecutions, fillExecution, fieldOf?, fillText, fillBoolean, fillNumber_number exitCode,
    fillNumber_number duration]

theorem ofJson?_toJson {g : Golden} (exitCode : IsWord g.compile.exitCode)
    (duration : IsWord g.compile.duration) : ofJson? g.toJson = some g := by
  obtain ⟨sourceHash, e, imageHash, image, listing⟩ := g
  have execution := fillExecutions_members exitCode duration
  simp only at execution
  by_cases noHash : imageHash = "" <;> by_cases noImage : image = "" <;> by_cases noListing :
    listing = "" <;> simp [ofJson?, toJson, optionalMember, noHash, noImage, noListing, fillGolden,
    fieldOf?, fillText, execution, blank]

theorem plain_toJson (g : Golden) (k : Nat) : g.toJson.Plain (k + 2) := by
  have optional (name value : String) :
    ∀ m ∈ optionalMember name value, Json.Plain (k + 1) m.2 := by
    intro m mem
    unfold optionalMember at mem
    split at mem
    · exact nomatch mem
    · obtain rfl := List.mem_singleton.mp mem
      exact .string value
  refine .object fun m mem => ?_
  simp only [List.mem_append, List.mem_cons, List.not_mem_nil, or_false] at mem
  obtain (((rfl | rfl) | mem) | mem) | mem := mem
  · exact .string _
  · refine .object fun m mem => ?_
    simp only [List.mem_cons, List.not_mem_nil, or_false] at mem
    obtain rfl | rfl | rfl | rfl := mem
    · exact .string _
    · exact .number _
    · exact .number _
    · exact .boolean _
  all_goals exact optional _ _ m mem

/-- **A golden file gives back what was stored.** -/
theorem read?_write {g : Golden} (exitCode : IsWord g.compile.exitCode)
    (duration : IsWord g.compile.duration) : read? g.write = some g := by
  rw [read?, write, Json.read?_write (plain_toJson g 9998), Option.bind_some,
    ofJson?_toJson exitCode duration]

end Golden

/-! ## Testing after recording -/

open Disk (SameTree)

/-- What a compiler does with a source: what it says, and the image that it writes, if any. -/
structure Verdict where
  exitCode : Int
  stdout : String
  stderr : String
  image : Option (List UInt8)

namespace Glob

theorem nodup_addFiles {d : Disk} {found : List String} (once : found.Nodup) (paths : List String) :
    (addFiles d found paths).Nodup := by
  induction paths generalizing found with
  | nil => exact once
  | cons path rest ih =>
    refine ih ?_
    have added (place : String) (wanted : Bool) :
        (if wanted && !found.contains place then found ++ [place] else found).Nodup := by
      split
      next new =>
        have fresh : place ∉ found := by
          simp only [Bool.and_eq_true] at new
          simpa using new.2
        refine List.nodup_append.mpr ⟨once, List.nodup_singleton _,
          fun a mem b last same => fresh ?_⟩
        rwa [← List.mem_singleton.mp last, ← same]
      next => exact once
    exact added _ _

/-- Every file is found once. -/
theorem nodup_expand {d : Disk} {patterns : String} {files : List String}
    (matched : expand d patterns = .ok files) : files.Nodup := by
  have each (found : List String) (once : found.Nodup) (ps : List String)
      (all : filesFor d found ps = .ok files) : files.Nodup := by
    induction ps generalizing found with
    | nil =>
      obtain rfl := Except.ok.inj all
      exact once
    | cons pattern rest ih =>
      rw [filesFor] at all
      split at all
      · cases all
      next => exact ih _ (nodup_addFiles once _) all
  exact each [] List.nodup_nil _ matched

end Glob

namespace TestOptions

variable (o : TestOptions) (l : Launcher)

/-- A disk was changed by compiling a source with some hash: at most its image is another. -/
structure Around (files : List String) (hash : String) (d d' : Disk) : Prop where
  tree : SameTree d d'
  sources : ∀ other ∈ files, d'.read other = d.read other
  goldens : ∀ other ∈ files, d'.read (o.goldenPath other) = d.read (o.goldenPath other)
  images : ∀ content, hashFor content ≠ hash →
    d'.read (o.imagePath (hashFor content)) = d.read (o.imagePath (hashFor content))

/-- What the compiler gives in time is a function of the source and of its arguments but for the
path of the image, and it changes nothing but its image. -/
structure Computes (f : List String → List UInt8 → Verdict) (d : Disk)
    (files : List String) : Prop where
  answers : ∀ {front : List String}, front = [] ∨ front = ["-d"] →
    ∀ {file content}, file ∈ files → ∀ left d',
    SameTree d d' → d'.read file = .ok content →
    let ended := l.start left o.compiler (front ++ o.compileArgs file (hashFor content)) d'
    let v := f (front ++ o.compilerArgs ++ [file]) content
    ended.1.2 < left → ended.1.1 = .ok ⟨v.exitCode, v.stdout, v.stderr⟩
      ∧ o.Around files (hashFor content) d' ended.2
      ∧ ended.2.read (o.imagePath (hashFor content))
          = match v.image with
            | some bytes => .ok bytes
            | none => d'.read (o.imagePath (hashFor content))

/-- The compiler ends before its time is over, when it compiles some files and when it lists them
after that. -/
structure InTime (d : Disk) (files : List String) : Prop where
  compiling : ∀ {file content}, file ∈ files → ∀ d', SameTree d d' → d'.read file = .ok content →
    (o.execute l o.timeout (o.compileArgs file (hashFor content)) d').1.1.timedOut = false
  listing : ∀ {file content}, file ∈ files → ∀ d', SameTree d d' → d'.read file = .ok content →
    o.listing = true →
    let (first, d'') := o.execute l o.timeout (o.compileArgs file (hashFor content)) d'
    (o.execute l (o.timeout - first.1.duration)
      ("-d" :: o.compileArgs file (hashFor content)) d'').1.1.timedOut = false

/-- What compiling a source finds, beside an older image if there is one. -/
def outcome (f : List String → List UInt8 → Verdict) (elapsed : Duration)
    (older : Option (List UInt8)) (source : String) (content : List UInt8) : Golden :=
  let args := o.compilerArgs ++ [source]
  let v := f args content
  let g : Golden := { Golden.blank with
    sourceHash := hashFor content
    compile := ⟨Text.replaceAll v.stderr source (Path.base source), v.exitCode, elapsed, false⟩ }
  if v.exitCode != 0 then g
  else match v.image.or older with
    | none => g
    | some bytes =>
      let g := { g with image := Text.textOfBytes bytes, imageHash := hashFor bytes }
      let dump := f ("-d" :: args) content
      if !o.listing || dump.exitCode != 0 then g else { g with listing := dump.stdout }

variable {o l} {f : List String → List UInt8 → Verdict} {d d' : Disk} {files : List String}

theorem Around.refl (o : TestOptions) (files : List String) (hash : String) (d : Disk) :
    o.Around files hash d d :=
  ⟨.refl d, fun _ _ => rfl, fun _ _ => rfl, fun _ _ => rfl⟩

theorem Around.trans {hash : String} {d'' : Disk} (first : o.Around files hash d d')
    (second : o.Around files hash d' d'') : o.Around files hash d d'' where
  tree := first.tree.trans second.tree
  sources other mem := (second.sources other mem).trans (first.sources other mem)
  goldens other mem := (second.goldens other mem).trans (first.goldens other mem)
  images content ne := (second.images content ne).trans (first.images content ne)

/-- A run that was in time has started. -/
theorem execute_eq {left : Duration} {args : List String}
    (inTime : (o.execute l left args d).1.1.timedOut = false) :
    (l.start left o.compiler args d).1.2 < left ∧
    ∀ p, (l.start left o.compiler args d).1.1 = .ok p → o.execute l left args d =
    ((⟨p.stderr, p.exitCode, (l.start left o.compiler args d).1.2, false⟩, p.stdout),
      (l.start left o.compiler args d).2) := by
  obtain ⟨ended, elapsed, d', start⟩ :
    ∃ ended elapsed d', l.start left o.compiler args d = ((ended, elapsed), d') :=
    ⟨_, _, _, rfl⟩
  by_cases spent : left ≤ 0
  · simp [execute, spent, pure, StateT.pure] at inTime
  · by_cases late : left ≤ elapsed
    · cases ended <;>
        simp [execute, spent, late, bind, StateT.bind, start, pure, StateT.pure] at inTime
    · rw [start]
      refine ⟨by simpa using late, fun p started => ?_⟩
      obtain rfl : ended = .ok p := started
      simp [execute, spent, late, bind, StateT.bind, start, pure, StateT.pure]

/-- Compiling a source finds its outcome. -/
theorem Computes.compile (computes : o.Computes l f d files)
    (inTime : o.InTime l d files) {file : String} (known : file ∈ files)
    (tree : SameTree d d') {content : List UInt8} (read : d'.read file = .ok content) :
    ∃ elapsed : Nat, elapsed < o.timeout ∧ (o.compile l file (hashFor content) d').1
    = o.outcome f elapsed (d'.content? (o.imagePath (hashFor content))) file content ∧
    o.Around files (hashFor content) d' (o.compile l file (hashFor content) d').2 := by
  obtain ⟨soon, ran⟩ := execute_eq (inTime.compiling known d' tree read)
  obtain ⟨answer, around, image⟩ := computes.answers (.inl rfl) known _ d' tree read soon
  have listed (on : o.listing = true) := inTime.listing known d' tree read on
  have first := ran _ answer
  rw [first] at listed
  simp only [List.nil_append] at soon around image first listed
  generalize (l.start o.timeout o.compiler (o.compileArgs file (hashFor content)) d').1.2 =
    elapsed at *
  generalize (l.start o.timeout o.compiler (o.compileArgs file (hashFor content)) d').2 = d'' at *
  set v := f (o.compilerArgs ++ [file]) content with verdict
  have left : d''.content? (o.imagePath (hashFor content)) =
    v.image.or (d'.content? (o.imagePath (hashFor content))) := by
    rw [Disk.content?, image]
    cases v.image <;> rfl
  refine ⟨elapsed, soon, ?_⟩
  -- a compiler that fails, or one that leaves no image, is not asked for a listing
  cases accepted : v.exitCode != 0 with
  | true =>
    simp only [TestOptions.compile, outcome, bind, StateT.bind, first, ← verdict, accepted,
      Bool.or_true, if_true]
    exact ⟨rfl, around⟩
  | false =>
    cases found : d''.read (o.imagePath (hashFor content)) with
    | error failure =>
      rw [Disk.content?, found] at left
      simp only [TestOptions.compile, outcome, bind, StateT.bind, first, ← verdict, accepted,
        Bool.or_false, Bool.false_eq_true, if_false, get, getThe, MonadStateOf.get, StateT.get,
        pure, found, ← left]
      exact ⟨rfl, around⟩
    | ok bytes =>
      rw [Disk.content?, found] at left
      cases wanted : o.listing with
      | false =>
        simp only [TestOptions.compile, outcome, bind, StateT.bind, first, ← verdict, accepted,
          Bool.or_false, Bool.false_eq_true, if_false, get, getThe, MonadStateOf.get, StateT.get,
          pure, found, ← left, wanted, Bool.not_false, if_true, Bool.true_or]
        exact ⟨rfl, around⟩
      | true =>
        -- the listing run has what is left of the time, and finds the source as it was
        obtain ⟨soon', ran'⟩ := execute_eq (listed wanted)
        obtain ⟨answer', around', -⟩ := computes.answers (.inr rfl) known _ d''
          (tree.trans around.tree) ((around.sources file known).trans read) soon'
        have second := ran' _ answer'
        simp only [List.cons_append, List.nil_append] at second around'
        generalize l.start (o.timeout - elapsed) o.compiler
          ("-d" :: o.compileArgs file (hashFor content)) d'' = dump
          at second around'
        have both := around.trans around'
        simp only [TestOptions.compile, outcome, bind, StateT.bind, first, ← verdict, accepted,
          Bool.or_false, Bool.false_eq_true, if_false, get, getThe, MonadStateOf.get, StateT.get,
          pure, found, ← left, wanted, Bool.not_true, second, Bool.false_or]
        split
        · exact ⟨rfl, both⟩
        · exact ⟨rfl, both⟩

theorem timedOut_outcome (o : TestOptions) (f : List String → List UInt8 → Verdict)
    (elapsed : Duration) (older : Option (List UInt8)) (source : String) (content : List UInt8) :
    (o.outcome f elapsed older source content).compile.timedOut = false := by
  simp only [outcome]
  repeat' split
  all_goals rfl

/-! ## Recording -/

/-- No golden file is a source or an image. -/
structure Aside (o : TestOptions) (d : Disk) (sources : List String) : Prop where
  others : ∀ s ∈ sources, ∀ other ∈ sources, d.place? other ≠ d.place? (o.goldenPath s)
  images :
    ∀ s ∈ sources, ∀ content, d.place? (o.imagePath (hashFor content)) ≠ d.place? (o.goldenPath s)

/-- The sources stand as they stood. -/
structure Steady (sources : List String) (d d' : Disk) : Prop where
  tree : SameTree d d'
  sources : ∀ s ∈ sources, d'.content? s = d.content? s

variable {sources : List String}

theorem content?_eq_some_iff_read {path : String} {content : List UInt8} :
    d.content? path = some content ↔ d.read path = .ok content := by
  rw [Disk.content?]
  cases d.read path <;> simp [Except.toOption]

theorem content?_congr {path : String} (same : d'.read path = d.read path) :
    d'.content? path = d.content? path := by
  rw [Disk.content?, Disk.content?, same]

/-- Recording one source stores its outcome and leaves the rest as it was. -/
theorem recordOne_stored (computes : o.Computes l f d sources) (inTime : o.InTime l d sources)
    (aside : o.Aside d sources) {s : String} (known : s ∈ sources) (steady : Steady sources d d')
    {line : String} {d'' : Disk} (recorded : o.recordOne l s d' = (.ok line, d'')) :
    ∃ content, ∃ elapsed : Nat, d.content? s = some content ∧
    Steady sources d d'' ∧ elapsed < o.timeout ∧ d''.content? (o.goldenPath s)
    = some (o.outcome f elapsed (d'.content? (o.imagePath (hashFor content))) s content).write ∧
    (∀ t ∈ sources, d.place? (o.goldenPath t) ≠ d.place? (o.goldenPath s) →
      d''.content? (o.goldenPath t) = d'.content? (o.goldenPath t)) ∧
    ∀ other, hashFor other ≠ hashFor content →
    d''.content? (o.imagePath (hashFor other)) = d'.content? (o.imagePath (hashFor other)) := by
  cases read : d'.read s with
  | error failure =>
    simp only [recordOne, bind, StateT.bind, get, getThe, MonadStateOf.get, StateT.get, pure,
      hashOf, read] at recorded
    cases recorded
  | ok content =>
    obtain ⟨elapsed, soon, found, around⟩ := computes.compile inTime known steady.tree read
    obtain ⟨g, d₁, compiled⟩ : ∃ g d₁, o.compile l s (hashFor content) d' = (g, d₁) := ⟨_, _, rfl⟩
    rw [compiled] at found around
    have hashed : hashOf d' s = .ok (hashFor content) := hashOf_eq_ok_iff.mpr ⟨content, read, rfl⟩
    have found : g = o.outcome f elapsed (d'.content? (o.imagePath (hashFor content))) s content :=
      found
    have inTime' : g.compile.timedOut = false := found ▸ o.timedOut_outcome f elapsed _ s content
    cases written : d₁.write (o.goldenPath s) g.write with
    | error failure =>
      simp only [recordOne, bind, StateT.bind, get, getThe, MonadStateOf.get, StateT.get, pure,
        hashed, compiled, inTime', Bool.false_eq_true, if_false, written] at recorded
      cases recorded
    | ok d₂ =>
      obtain rfl : d₂ = d'' := by
        simp only [recordOne, bind, StateT.bind, get, getThe,
          MonadStateOf.get, StateT.get, pure, hashed, compiled,
          inTime', Bool.false_eq_true, if_false, written, set, StateT.set, StateT.pure] at recorded
        exact (Prod.mk.inj recorded).2
      have tree := steady.tree.trans around.tree
      have elsewhere {path : String} (other : d.place? path ≠ d.place? (o.goldenPath s)) :
          d₂.content? path = d₁.content? path :=
        Disk.content?_write_of_ne written (by rwa [Disk.place?_congr tree, Disk.place?_congr tree])
      refine ⟨content, elapsed, ?_, ⟨tree.trans (Disk.sameTree_write written), fun t mem => ?_⟩,
        soon, ?_, fun t mem other => ?_, fun other ne => ?_⟩
      · rw [← steady.sources s known, content?_eq_some_iff_read, read]
      · rw [elsewhere (aside.others s known t mem), content?_congr (around.sources t mem),
          steady.sources t mem]
      · rw [Disk.content?_write written, found]
      · rw [elsewhere other, content?_congr (around.goldens t mem)]
      · rw [elsewhere (aside.images s known other), content?_congr (around.images other ne)]

/-- After recording, the golden file of every source with a new hash holds what compiling that
source finds. -/
theorem recordAll_stored (computes : o.Computes l f d sources) (inTime : o.InTime l d sources)
    (aside : o.Aside d sources) {list : List String} (known : list ⊆ sources)
    (once : (list.map fun s => d.place? (o.goldenPath s)).Nodup)
    (steady : Steady sources d d') {lines : List String}
    {d'' : Disk} (recorded : o.recordAll l list d' = ((lines, none), d'')) : Steady sources d d'' ∧
    (∀ t ∈ sources, (∀ s ∈ list, d.place? (o.goldenPath t) ≠ d.place? (o.goldenPath s)) →
      d''.content? (o.goldenPath t) = d'.content? (o.goldenPath t)) ∧
    ∀ before s after, list = before ++ s :: after → ∃ content, d.content? s = some content ∧
    ((∀ t ∈ before, ∀ other, d.content? t = some other → hashFor other ≠ hashFor content) →
      ∃ elapsed : Nat, elapsed < o.timeout ∧ d''.content? (o.goldenPath s) = some
      (o.outcome f elapsed (d'.content? (o.imagePath (hashFor content))) s content).write) := by
  -- by induction on the sources that are left; those recorded later write other golden files, and
  -- they leave the image of this one alone unless they have its content
  induction list generalizing d' lines with
  | nil =>
    obtain rfl : d' = d'' := congrArg Prod.snd recorded
    exact ⟨steady, fun _ _ _ => rfl, fun before s after split => absurd split.symm (by simp)⟩
  | cons s rest ih =>
    obtain ⟨r, d₁, first⟩ : ∃ r d₁, o.recordOne l s d' = (r, d₁) := ⟨_, _, rfl⟩
    cases r with
    | error e =>
      simp only [recordAll, bind, StateT.bind, first] at recorded
      exact absurd (congrArg (·.1.2) recorded) (by simp [pure, StateT.pure])
    | ok line =>
      obtain ⟨p, d₂, rest'⟩ : ∃ p d₂, o.recordAll l rest d₁ = (p, d₂) := ⟨_, _, rfl⟩
      simp only [recordAll, bind, StateT.bind, first, rest', pure, StateT.pure] at recorded
      obtain ⟨listed, rfl⟩ := Prod.mk.inj recorded
      obtain ⟨lines', e⟩ := p
      obtain rfl : e = none := (Prod.mk.inj listed).2
      obtain ⟨inList, inRest⟩ := List.cons_subset.mp known
      rw [List.map_cons, List.nodup_cons] at once
      obtain ⟨content, elapsed, read, steady', soon, stored, goldens, images⟩ :=
        recordOne_stored computes inTime aside inList steady first
      obtain ⟨steady'', kept, later⟩ := ih inRest once.2 steady' rest'
      refine ⟨steady'', ?_, ?_⟩
      · intro t mem apart
        rw [kept t mem fun s mem => apart s (List.mem_cons_of_mem _ mem),
          goldens t mem (apart s List.mem_cons_self)]
      · intro before s' after split
        cases before with
        | nil =>
          obtain ⟨rfl, -⟩ := List.cons.inj split
          refine ⟨content, read, fun _ => ⟨elapsed, soon, ?_⟩⟩
          rw [kept s inList fun t mem same => once.1 (List.mem_map.mpr ⟨t, mem, same.symm⟩), stored]
        | cons t before =>
          obtain ⟨rfl, rest⟩ := List.cons.inj split
          obtain ⟨content', read', stored'⟩ := later before s' after rest
          refine ⟨content', read', fun new => ?_⟩
          rw [← images content' (new s List.mem_cons_self content read).symm]
          exact stored' fun t mem => new t (List.mem_cons_of_mem _ mem)

/-! ## Testing -/

/-- A compiler that is a function of its arguments and of the source keeps its tests apart. -/
theorem Computes.confined (computes : o.Computes l f d files) (inTime : o.InTime l d files)
    (skipped : List String) : o.Confined l d files (testsOf (tasks d skipped [] files)) := by
  have test {file hash : String} (mem : (file, hash) ∈ testsOf (tasks d skipped [] files)) :
      file ∈ files ∧ ∃ content, d.read file = .ok content ∧ hashFor content = hash := by
    obtain ⟨known, hashed⟩ := triage_of_mem_testsOf mem
    exact ⟨known, hashOf_eq_ok_iff.mp hashed⟩
  have around {file hash : String} (mem : (file, hash) ∈ testsOf (tasks d skipped [] files))
      (d' : Disk) (tree : SameTree d d') (read : d'.read file = d.read file) :
      o.Around files hash d' (o.testFile l file hash d').2 := by
    obtain ⟨known, content, here, rfl⟩ := test mem
    rw [congrArg Prod.snd (o.testFile_eq l file (hashFor content) d')]
    split
    · exact .refl o files _ d'
    · obtain ⟨-, -, -, changes⟩ := computes.compile inTime known tree (read.trans here)
      exact changes
  refine ⟨?_, ?_, ?_, ?_⟩
  · intro file hash mem d' tree alike
    exact tree.trans (around mem d' tree alike.source).tree
  · intro file hash mem d' tree alike other known
    exact (around mem d' tree alike.source).sources other known
  · intro file hash mem d' tree alike other known
    exact (around mem d' tree alike.source).goldens other known
  · intro file hash mem d' tree alike other known ne
    obtain ⟨-, content, -, same⟩ := test known
    rw [← same] at ne ⊢
    exact (around mem d' tree alike.source).images content ne

/-- A compilation like the stored one but for its duration passes. -/
theorem judge_again (o : TestOptions) (l : Launcher) (file : String) {want got : Golden}
    {duration : Duration} (again : got = { want with compile := { want.compile with duration } })
    (inTime : want.compile.timedOut = false) : (o.judge l file want got).status = .pass := by
  have none : want.mismatches got o.ignored = [] := by simp [Golden.mismatches, again]
  have inTime' : got.compile.timedOut = false := again ▸ inTime
  simp [judge, inTime', Golden.compare, none]

/-- Compiling again finds the same, whatever the scratch directory is and however long it takes. -/
theorem outcome_again (o : TestOptions) (scratch : String)
    (f : List String → List UInt8 → Verdict) (elapsed again : Duration)
    (older : Option (List UInt8)) (source : String) (content : List UInt8) :
    ({ o with scratch } : TestOptions).outcome f again older source content
    = { o.outcome f elapsed older source content with
          compile :=
            { (o.outcome f elapsed older source content).compile with duration := again } } := by
  simp only [outcome]
  repeat' split
  all_goals rfl

theorem outcome_hash (f : List String → List UInt8 → Verdict) (elapsed : Duration)
    (older : Option (List UInt8)) (source : String) (content : List UInt8) :
    (o.outcome f elapsed older source content).sourceHash = hashFor content ∧
    (o.outcome f elapsed older source content).compile.exitCode
    = (f (o.compilerArgs ++ [source]) content).exitCode ∧
    (o.outcome f elapsed older source content).compile.duration = elapsed := by
  simp only [outcome]
  repeat' split
  all_goals exact ⟨rfl, rfl, rfl⟩

/-- What comes before an entry of a part of a list comes before it in the whole list. -/
theorem exists_before_of_sublist {xs before after : List String} {x : String}
    (part : xs.Sublist (before ++ x :: after)) (once : (before ++ x :: after).Nodup)
    (mem : x ∈ xs) : ∃ b c, xs = b ++ x :: c ∧ b.Sublist before := by
  obtain ⟨b, c, rfl, left, right⟩ := List.sublist_append_iff.mp part
  obtain ⟨-, later, apart⟩ := List.nodup_append.mp once
  have inRight : x ∈ c := (List.mem_append.mp mem).resolve_left fun inLeft =>
    apart x (left.subset inLeft) x List.mem_cons_self rfl
  rcases List.sublist_cons_iff.mp right with passed | ⟨r, rfl, -⟩
  · exact absurd (passed.subset inRight) (List.nodup_cons.mp later).1
  · exact ⟨b, r, rfl, left⟩

/-- A result is a pass, or says that an earlier file has the same hash. -/
def PassedOrRepeated (d : Disk) (files : List String) (r : TestResult) : Prop :=
  r.status = .pass ∨ r.status = .skip ∧ ∃ first hash, [first, r.file].Sublist files ∧
    hashOf d first = .ok hash ∧ hashOf d r.file = .ok hash ∧ r.message = "Same content as " ++ first

/-- What was recorded passes. -/
theorem run_recorded (scratch patterns : String) {l' : Launcher} {d₀ d₁ d₂ d₃ : Disk}
    -- The sources are recorded.
    (matched : Glob.expand d₀ patterns = .ok sources)
    (directory : o.makeGoldenDirectory d₀ = (none, d₁))
    (recorded : ∃ lines, o.record l patterns d₀ = ((lines, none), d₂))
    (aside : o.Aside d₁ sources) (once : (sources.map fun s => d₁.place? (o.goldenPath s)).Nodup)
    -- They are tested on a disk where they and their golden files are unchanged.
    (there : l'.isThere o.compiler d₃ = (true, d₃)) (noSkips : o.skipFiles = [])
    (matched' : Glob.expand d₃ o.testFiles = .ok files) (again : sources.Sublist files)
    (unchanged : ∀ s ∈ sources, d₃.content? s = d₁.content? s)
    (kept : ∀ s ∈ sources, d₃.content? (o.goldenPath s) = d₂.content? (o.goldenPath s))
    -- The compiler is a function, it has enough time, and the scratch directories are empty.
    (computes : o.Computes l f d₁ sources)
    (computes' : ({ o with scratch } : TestOptions).Computes l' f d₃ files)
    (inTime : o.InTime l d₁ sources)
    (inTime' : ({ o with scratch } : TestOptions).InTime l' d₃ files)
    (words : ∀ args content, IsWord (f args content).exitCode) (word : IsWord o.timeout)
    (empty : ∀ content, d₁.content? (o.imagePath (hashFor content)) = none)
    (empty' : ∀ content,
      d₃.content? (({ o with scratch } : TestOptions).imagePath (hashFor content)) = none) :
    ∃ results lines, (({ o with scratch } : TestOptions).run l' d₃).1 = .ok (results, lines)
      ∧ (results.map (·.file)).Perm files
      ∧ ∀ r ∈ results, r.file ∈ sources → PassedOrRepeated d₃ files r := by
  have all : ∃ lines, o.recordAll l sources d₁ = ((lines, none), d₂) := by
    obtain ⟨lines, recorded⟩ := recorded
    simp only [record, bind, StateT.bind, get, getThe, MonadStateOf.get, StateT.get, pure,
      matched] at recorded
    cases sources with
    | nil => exact absurd (congrArg (·.1.2) recorded) (by simp [StateT.pure, pure])
    | cons s rest =>
      simp only [StateT.bind, directory, bind] at recorded
      exact ⟨lines, recorded⟩
  obtain ⟨lines, all⟩ := all
  obtain ⟨-, -, stored⟩ := recordAll_stored computes inTime aside (List.Subset.refl _) once
    ⟨.refl d₁, fun _ _ => rfl⟩ all
  obtain ⟨logged, ran⟩ := run_eq_inTurn (o := { o with scratch }) there matched'
  have skipped :
    ({ o with scratch } : TestOptions).skipFiles.map (Path.absolute d₃.workingDirectory) = [] := by
    simp [noSkips]
  rw [skipped] at ran
  have answers := (computes'.confined inTime' []).answers
  refine ⟨_, logged, ran, ((List.mergeSort_perm _ _).map _).trans
    (.of_eq (map_file_inTurn answers)), fun r mem inSources => ?_⟩
  · obtain ⟨task, inTasks, d', look, rfl⟩ :=
      exists_of_mem_inTurn answers ((List.mergeSort_perm _ _).subset mem)
    obtain ⟨before, file, after, split, found⟩ := exists_of_mem_tasks inTasks
    have ofFile : (({ o with scratch } : TestOptions).answer l' d' task).file = file := by
      rw [file_answer, found, file_triage]
    rw [ofFile] at inSources
    obtain ⟨b, c, listed, earlier⟩ :=
      exists_before_of_sublist (split ▸ again) (split ▸ Glob.nodup_expand matched') inSources
    obtain ⟨content, read, stored⟩ := stored b file c listed
    have read' : d₃.read file = .ok content :=
      content?_eq_some_iff_read.1 ((unchanged file inSources).trans read)
    have hashed : hashOf d₃ file = .ok (hashFor content) :=
      hashOf_eq_ok_iff.mpr ⟨content, read', rfl⟩
    cases first : (noted d₃ [] [] before).lookup (hashFor content) with
    | some first' =>
      have repeated : task = .settled (.plain file .skip ("Same content as " ++ first')) := by
        rw [found, triage, if_neg (by simp), hashed]
        simp only [first]
      obtain ⟨skip, rest, listed, -⟩ := List.lookup_eq_some_iff.mp first
      have noted := hashOf_of_mem_noted (listed ▸ List.mem_append_right skip List.mem_cons_self)
      obtain ⟨inBefore, hashed'⟩ := noted.resolve_left (by simp)
      refine .inr ⟨by rw [repeated]; rfl, first', hashFor content, ?_, hashed', ?_,
        by rw [repeated]; rfl⟩
      · rw [ofFile, split]
        exact (List.singleton_sublist.mpr inBefore).append
          (List.singleton_sublist.mpr List.mem_cons_self)
      · rw [ofFile, hashed]
    | none =>
      have fresh : task = .test file (hashFor content) := by
        rw [found, triage, if_neg (by simp), hashed]
        simp only [first]
      have new : ∀ t ∈ b, ∀ other, d₁.content? t = some other →
        hashFor other ≠ hashFor content := by
        intro t mem other read same
        have inSources' : t ∈ sources := listed ▸ List.mem_append_left _ mem
        have read'' : d₃.read t = .ok other :=
          content?_eq_some_iff_read.1 ((unchanged t inSources').trans read)
        have hashed' : hashOf d₃ t = .ok (hashFor content) :=
          hashOf_eq_ok_iff.mpr ⟨other, read'', same⟩
        have noted : ((noted d₃ [] [] before).lookup (hashFor content)).isSome :=
          lookup_noted (.inr ⟨t, earlier.subset mem, rfl, hashed'⟩)
        rw [first] at noted
        cases noted
      obtain ⟨elapsed, soon, recorded⟩ := stored new
      rw [empty content] at recorded
      set want := o.outcome f elapsed none file content with wanted
      obtain ⟨sameHash, sameCode, sameTime⟩ := outcome_hash (o := o) f elapsed none file content
      rw [← wanted] at sameHash sameCode sameTime
      have short : IsWord want.compile.duration := by
        rw [sameTime]
        exact ⟨le_trans (by decide) (Int.natCast_nonneg elapsed), lt_trans soon word.2⟩
      have readBack := Golden.read?_write (g := want) (sameCode ▸ words _ _) short
      -- The test finds the record, the source and no image where they were at the start.
      have inFiles := again.subset inSources
      rw [fresh] at look
      have alike := look.alike inFiles List.mem_cons_self
      have golden : d'.read (o.goldenPath file) = .ok want.write :=
        (look.goldens file inFiles).trans
          (content?_eq_some_iff_read.1 ((kept file inSources).trans recorded))
      have known : ({ o with scratch } : TestOptions).consult file (hashFor content)
          (d'.read (({ o with scratch } : TestOptions).goldenPath file)) = .ok want := by
        have golden' :
            d'.read (({ o with scratch } : TestOptions).goldenPath file) = .ok want.write :=
          golden
        rw [golden', consult]
        simp only [readBack, sameHash, bne_self_eq_false, Bool.false_eq_true, if_false]
      have tested : ({ o with scratch } : TestOptions).answer l' d' task
          = (({ o with scratch } : TestOptions).testFile l' file (hashFor content) d').1.1 := by
        rw [fresh]
        rfl
      obtain ⟨elapsed', -, compiled, -⟩ :=
        computes'.compile inTime' inFiles look.tree (alike.source.trans read')
      rw [content?_congr alike.image, empty' content] at compiled
      refine .inl ?_
      rw [tested, congrArg Prod.fst (TestOptions.testFile_eq _ _ _ _ _), known]
      simp only [compiled]
      exact judge_again _ l' file (o.outcome_again scratch f elapsed elapsed' none file content)
        (o.timedOut_outcome f elapsed none file content)

/-! ## A compiler that rejects every program -/

theorem computes_rejecting (o : TestOptions) (d : Disk) (files : List String) :
    o.Computes .rejecting (fun _ _ => ⟨1, "", "rejected\n", none⟩) d files where
  answers _ _ _ _ _ d' _ _ _ := ⟨rfl, .refl o files _ d', rfl⟩

theorem inTime_rejecting {o : TestOptions} (long : (2000000 : Int) < o.timeout) (d : Disk)
    (files : List String) : o.InTime .rejecting d files := by
  have ran (left : Int) (enough : 1000000 < left) (args : List String) (d' : Disk) :
      o.execute .rejecting left args d' = ((⟨"rejected\n", 1, 1000000, false⟩, ""), d') := by
    have some : ¬ left ≤ 0 := by omega
    have early : ¬ left ≤ 1000000 := by omega
    simp [execute, Launcher.rejecting, some, early, bind, StateT.bind, pure, StateT.pure]
  constructor
  · intro file content _ d' _ _
    rw [ran o.timeout (by omega)]
  · intro file content _ d' _ _ _
    rw [ran o.timeout (by omega)]
    dsimp only
    rw [ran _ (by omega)]

/-- The images of a scratch directory lead to places in it. -/
theorem eq_of_place?_imagePath {o : TestOptions} (scratch : o.scratch = "/scratch")
    {content : List UInt8} {p : Place} (leads : d.place? (o.imagePath (hashFor content)) = some p) :
    p = ["scratch", hashFor content ++ ".txt"] := by
  have plain := plain_image content
  have path : o.imagePath (hashFor content) = "/scratch" ++ "/" ++ (hashFor content ++ ".txt") := by
    have front : Path.front "/scratch" = "/scratch" ++ "/" := by decide
    rw [imagePath, scratch, Path.join_plain _ plain, front]
  have parts :
    Path.components (o.imagePath (hashFor content)) = ["scratch", hashFor content ++ ".txt"] := by
    have dir : Path.components "/scratch" = ["scratch"] := by decide
    rw [path, Path.components_append, dir, Path.components_plain plain]
    rfl
  have rooted : Path.isAbsolute (o.imagePath (hashFor content)) = true := by
    rw [path, Path.isAbsolute, String.append_assoc]
    exact (Text.startsWith_append_of_ne_empty (by decide) _).trans (by decide)
  rw [Disk.place?, parts, rooted] at leads
  split at leads
  · cases leads
  · have inside := Disk.follow?_of_cons (Disk.follow?_of_cons leads)
    have dots : ("scratch" == ".") = false ∧ ("scratch" == "..") = false := by decide
    have dots' : (hashFor content ++ ".txt" == ".") = false ∧
      (hashFor content ++ ".txt" == "..") = false := by
      simpa using And.intro plain.here plain.up
    simp only [dots, dots', Bool.false_eq_true, if_false, if_true, List.nil_append] at inside
    exact (Option.some.inj inside).symm

/-- A source that the compiler rejects, recorded and tested. -/
theorem run_recorded_rejected :
    let o : TestOptions :=
      ⟨"cc", [], "/a.c", [], "report", "", [], 5000000000, false, false, "/scratch"⟩
    let d : Disk := ⟨[(["a.c"], [120])], [["scratch"]], []⟩
    let d' := (o.record .rejecting "/a.c" d).2
    ∃ results lines, (o.run .rejecting d').1 = .ok (results, lines) ∧
      (results.map (·.file)).Perm ["/a.c"] ∧ ∀ r ∈ results, r.file ∈ ["/a.c"] →
      PassedOrRepeated d' ["/a.c"] r := by
  intro o d d'
  have aside : o.Aside d ["/a.c"] := by
    refine ⟨by decide +kernel, fun s mem content same => ?_⟩
    obtain rfl := List.mem_singleton.mp mem
    have golden : d.place? (o.goldenPath "/a.c") = some [".a.c.json"] := by decide +kernel
    exact absurd (eq_of_place?_imagePath rfl (same.trans golden)) (by simp)
  have empty (d : Disk) (outside : ∀ p ∈ d.files.map Prod.fst, p.length = 1) (content : List UInt8)
      : d.content? (o.imagePath (hashFor content)) = none := by
    by_contra found
    obtain ⟨bytes, found⟩ := Option.ne_none_iff_exists'.mp found
    obtain ⟨p, leads, -, here⟩ := Disk.content?_eq_some_iff.mp found
    have listed := Disk.mem_files_of_fileAt? here
    have deep := outside p listed
    rw [eq_of_place?_imagePath rfl leads] at deep
    simp at deep
  refine run_recorded (o := o) (l := .rejecting) (f := fun _ _ =>
    ⟨1, "", "rejected\n", none⟩) "/scratch" "/a.c" (by decide +kernel) rfl ⟨_,
    Prod.ext (Prod.ext rfl (by decide +kernel)) rfl⟩ aside (by decide +kernel)
    rfl rfl (by decide +kernel) (List.Sublist.refl _) (by decide +kernel) (fun s mem => rfl)
    (computes_rejecting _ _ _) (computes_rejecting _ _ _) (inTime_rejecting (by decide) _ _)
    (inTime_rejecting (by decide) _ _) (fun _ _ => by decide) (by decide)
    (empty d (by decide +kernel)) (empty d' (by decide +kernel))

/-- Two sources of one name with a directory for the golden files: the second record takes the place
of the first, so the first source neither passes nor repeats an earlier one. -/
theorem run_recorded_overwritten :
    let o : TestOptions :=
      ⟨"cc", [], "/a/x.c /b/x.c", [], "report", "/g", [], 5000000000, false, false, "/scratch"⟩
    let d : Disk :=
      ⟨[(["a", "x.c"], [49]), (["b", "x.c"], [50])], [["a"], ["b"], ["g"], ["scratch"]], []⟩
    let d' := (o.record .rejecting o.testFiles d).2
    let sources := ["/a/x.c", "/b/x.c"]
    Glob.expand d o.testFiles = .ok sources ∧ (o.record .rejecting o.testFiles d).1.2 = none ∧
      (∀ s ∈ sources, d'.content? s = d.content? s) ∧ Glob.expand d' o.testFiles = .ok sources ∧
      o.Computes .rejecting (fun _ _ => ⟨1, "", "rejected\n", none⟩) d' sources ∧
      o.InTime .rejecting d' sources ∧ ∃ results lines, (o.run .rejecting d').1 =
      .ok (results, lines) ∧ ∃ r ∈ results, r.file ∈ sources ∧ ¬ PassedOrRepeated d' sources r := by
  intro o d d' sources
  have matched' : Glob.expand d' o.testFiles = .ok sources := by decide +kernel
  obtain ⟨lines, ran⟩ := run_eq_inTurn (o := o) (l := .rejecting) rfl matched'
  have results : (o.inTurn .rejecting d' [] sources).map (fun r => (r.file, r.status))
      = [("/a/x.c", .skip), ("/b/x.c", .pass)] := by
    decide +kernel
  obtain ⟨r, mem, same⟩ := List.mem_map.mp (results ▸ List.mem_cons_self)
  obtain ⟨file, status⟩ := Prod.mk.inj same
  refine ⟨by decide +kernel, by decide +kernel, by decide +kernel, matched',
    computes_rejecting _ _ _, inTime_rejecting (by decide) _ _, _, lines, ran, r,
    (List.mergeSort_perm _ _).symm.subset mem, by rw [file]; exact List.mem_cons_self, ?_⟩
  rintro (passed | ⟨-, first, hash, earlier, -⟩)
  · cases status.symm.trans passed
  · have whole := earlier.eq_of_length rfl
    rw [file] at whole
    exact absurd (List.cons.inj (List.cons.inj whole).2).1 (by decide)

end TestOptions

end BilingualC
