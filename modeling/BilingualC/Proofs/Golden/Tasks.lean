import Mathlib
import BilingualC.Golden.Runner
import BilingualC.Proofs.Disk
import BilingualC.Proofs.Path

/-!
# The tests of a run

Which files are tested depends on the contents of all of them: of the files with one hash only the
first is tested. If every test keeps to its file, its golden file and its image, the order of the
tests does not matter.

Main results:
1. `TestOptions.hashes_tasks`, `TestOptions.imagePath_inj`: no two tests have one hash, or one
  image.
2. `TestOptions.inTurn_eq`: a run gives for each task what the task gives at the start.
-/

namespace BilingualC

namespace TestOptions

variable (o : TestOptions) (l : Launcher)

/-- The tests among some tasks: the file and its hash. -/
def Task.test? : Task → Option (String × String)
  | .settled _ => none
  | .test file hash => some (file, hash)

/-- The tests that some tasks ask for. -/
def testsOf (ts : List Task) : List (String × String) := ts.filterMap Task.test?

/-- The file that a task is about. -/
def Task.file : Task → String
  | .settled r => r.file
  | .test file _ => file

/-- What a task gives on a disk. -/
def answer (d : Disk) (t : Task) : TestResult := (o.perform l t d).1.1

/-- The results of doing the tasks for some files one after the other. -/
def inTurn (d : Disk) (skipped files : List String) : List TestResult :=
  ((tasks d skipped [] files).mapM (o.perform l) d).1.map (·.1)

theorem testsOf_settled (r : TestResult) (ts : List Task) :
    testsOf (.settled r :: ts) = testsOf ts :=
  rfl

theorem testsOf_test (file hash : String) (ts : List Task) :
    testsOf (.test file hash :: ts) = (file, hash) :: testsOf ts := rfl

theorem triage_congr {d d' : Disk} {file : String}
    (same : d'.read file = d.read file) (skipped : List String)
    (seen : List (String × String)) : triage d' skipped seen file = triage d skipped seen file := by
  simp only [triage, hashOf, same]

theorem file_triage (d : Disk) (skipped : List String) (seen : List (String × String))
    (file : String) : (triage d skipped seen file).file = file := by
  simp only [triage]
  repeat' split
  all_goals rfl

theorem map_file_tasks (d : Disk) (skipped : List String) (seen : List (String × String))
    (files : List String) : (tasks d skipped seen files).map Task.file = files := by
  induction files generalizing seen with
  | nil => rfl
  | cons file rest ih => simp only [tasks, List.map_cons, file_triage, ih]

/-- A file is tested under its hash, and only if no earlier file has it. -/
theorem triage_test {d : Disk} {skipped : List String} {seen : List (String × String)}
    {file file' hash : String} (task : triage d skipped seen file = .test file' hash) :
    file' = file ∧ hashOf d file = .ok hash ∧ seen.lookup hash = none := by
  simp only [triage] at task
  split at task
  · exact nomatch task
  · split at task
    · exact nomatch task
    · next hash' hashed =>
      split at task
      · exact nomatch task
      · next unseen =>
        obtain ⟨rfl, rfl⟩ := Task.test.inj task
        exact ⟨rfl, hashed, unseen⟩

/-- No two tests have the same hash, or that of an earlier file. -/
theorem hashes_tasks (d : Disk) (skipped : List String)
    (seen : List (String × String)) (files : List String) :
    ((testsOf (tasks d skipped seen files)).map Prod.snd ++ seen.map Prod.fst).Nodup ↔
    (seen.map Prod.fst).Nodup := by
  induction files generalizing seen with
  | nil => simp [tasks, testsOf]
  | cons file rest ih =>
    cases task : triage d skipped seen file with
    | settled r =>
      rw [tasks, task, testsOf_settled]
      exact ih seen
    | test file' hash =>
      have unseen : hash ∉ seen.map Prod.fst := by
        have none := (triage_test task).2.2
        rw [List.lookup_eq_none_iff] at none
        rw [List.mem_map]
        rintro ⟨first, mem, rfl⟩
        simpa using none first mem
      have later := ih ((hash, file') :: seen)
      rw [List.map_cons, List.nodup_middle,
        List.nodup_cons (a := hash) (l := seen.map Prod.fst)] at later
      rw [tasks, task, testsOf_test, List.map_cons, List.cons_append]
      exact later.trans (and_iff_right unseen)

theorem nodup_tests (d : Disk) (skipped files : List String) :
    ((testsOf (tasks d skipped [] files)).map Prod.snd).Nodup := by
  simpa using hashes_tasks d skipped [] files

theorem triage_of_mem_testsOf {d : Disk}
    {skipped files : List String} {seen : List (String × String)}
    {file hash : String} (mem : (file, hash) ∈ testsOf (tasks d skipped seen files)) :
    file ∈ files ∧ hashOf d file = .ok hash := by
  induction files generalizing seen with
  | nil => exact nomatch mem
  | cons first rest ih =>
    cases task : triage d skipped seen first with
    | settled r =>
      rw [tasks, task, testsOf_settled] at mem
      exact ⟨List.mem_cons_of_mem _ (ih mem).1, (ih mem).2⟩
    | test file' hash' =>
      rw [tasks, task, testsOf_test, List.mem_cons] at mem
      rcases mem with same | mem
      · obtain ⟨rfl, rfl⟩ := Prod.mk.inj same
        obtain ⟨rfl, hashed, -⟩ := triage_test task
        exact ⟨List.mem_cons_self, hashed⟩
      · exact ⟨List.mem_cons_of_mem _ (ih mem).1, (ih mem).2⟩

/-- The first files of the hashes after some files. -/
def noted (d : Disk) (skipped : List String) (seen : List (String × String)) : List String →
    List (String × String)
  | [] => seen
  | file :: rest => noted d skipped ((triage d skipped seen file).note seen) rest

/-- Every task is what is to be done about its file after the files before it. -/
theorem exists_of_mem_tasks {d : Disk} {skipped files : List String}
    {seen : List (String × String)} {task : Task} (mem : task ∈ tasks d skipped seen files) :
    ∃ before file after, files = before ++ file :: after ∧
    task = triage d skipped (noted d skipped seen before) file := by
  induction files generalizing seen with
  | nil => exact nomatch mem
  | cons file rest ih =>
    rw [tasks, List.mem_cons] at mem
    rcases mem with rfl | mem
    · exact ⟨[], file, rest, rfl, rfl⟩
    · obtain ⟨before, file', after, rfl, same⟩ := ih mem
      exact ⟨file :: before, file', after, rfl, same⟩

/-- A file that is noted has the hash that it is noted for. -/
theorem hashOf_of_mem_noted {d : Disk} {skipped files : List String} {seen : List (String × String)}
    {hash file : String} (mem : (hash, file) ∈ noted d skipped seen files) :
    (hash, file) ∈ seen ∨ file ∈ files ∧ hashOf d file = .ok hash := by
  induction files generalizing seen with
  | nil => exact .inl mem
  | cons first rest ih =>
    rcases ih mem with here | ⟨later, hashed⟩
    · cases task : triage d skipped seen first with
      | settled r =>
        rw [task] at here
        exact .inl here
      | test file' hash' =>
        rw [task, Task.note, List.mem_cons] at here
        rcases here with same | here
        · obtain ⟨rfl, rfl⟩ := Prod.mk.inj same
          obtain ⟨rfl, hashed, -⟩ := triage_test task
          exact .inr ⟨List.mem_cons_self, hashed⟩
        · exact .inl here
    · exact .inr ⟨List.mem_cons_of_mem _ later, hashed⟩

/-- The hash of a file that is not skipped is noted when the file was looked at, and hashes stay
noted. -/
theorem lookup_note_triage {d : Disk} {skipped : List String}
    {seen : List (String × String)} {first hash : String}
    (known : (seen.lookup hash).isSome ∨ skipped.contains first = false ∧ hashOf d first = .ok hash)
    : (((triage d skipped seen first).note seen).lookup hash).isSome := by
  cases task : triage d skipped seen first with
  | settled r =>
    rcases known with known | ⟨tested, hashed⟩
    · exact known
    · rw [triage, tested, if_neg (by simp)] at task
      simp only [hashed] at task
      split at task
      next same => exact Option.isSome_of_eq_some same
      next => exact nomatch task
  | test file' hash' =>
    rw [Task.note, List.lookup_cons]
    by_cases same : (hash == hash') = true
    · rw [same]
      rfl
    · rw [Bool.not_eq_true] at same
      rw [same]
      refine known.resolve_right fun ⟨_, hashed⟩ => ?_
      obtain ⟨rfl, hashed', -⟩ := triage_test task
      obtain rfl := Except.ok.inj (hashed.symm.trans hashed')
      simp at same

/-- The hash of every file that is not skipped is noted. -/
theorem lookup_noted {d : Disk} {skipped files : List String}
    {seen : List (String × String)} {hash : String} (known : (seen.lookup hash).isSome ∨
      ∃ file ∈ files, skipped.contains file = false ∧ hashOf d file = .ok hash) :
    ((noted d skipped seen files).lookup hash).isSome := by
  induction files generalizing seen with
  | nil => exact known.resolve_right (by simp)
  | cons first rest ih =>
    refine ih ?_
    rcases known with here | ⟨file, mem, tested, hashed⟩
    · exact .inl (lookup_note_triage (.inl here))
    · rcases List.mem_cons.mp mem with rfl | mem
      · exact .inl (lookup_note_triage (.inr ⟨tested, hashed⟩))
      · exact .inr ⟨file, mem, tested, hashed⟩

theorem file_compare (file : String) (want got : Golden) (ignored : List String)
    (difference : List String → List String → String) :
    (Golden.compare file want got ignored difference).file = file := by
  simp only [Golden.compare]
  split <;> rfl

/-- What is known from a golden file before anything is compiled: the result, or the record to
compare with. -/
def consult (file hash : String) (stored : Except FileFailure (List UInt8)) :
    Except TestResult Golden :=
  match stored with
  | .error failure =>
    .error (if failure.cause == .notFound
      then .plain file .skip "No golden file; record one with -generate-golden"
      else .plain file .error failure.message)
  | .ok bytes =>
    match Golden.read? bytes with
    | none => .error (.plain file .error (malformed (o.goldenPath file)))
    | some want =>
      if want.sourceHash != hash then
        .error ⟨file, .skip, "Source changed since the golden file was recorded", "",
          some want, none⟩
      else .ok want

/-- What is said about a compilation beside a golden file. -/
def judge (file : String) (want got : Golden) : TestResult :=
  if got.compile.timedOut then ⟨file, .error, o.timeoutMessage, "", some want, some got⟩
  else Golden.compare file want got o.ignored l.difference

/-- A test first consults the golden file and compiles only if there is something to compare
with. -/
theorem testFile_eq (file hash : String) (d : Disk) :
    ((o.testFile l file hash d).1.1, (o.testFile l file hash d).2)
      = match o.consult file hash (d.read (o.goldenPath file)) with
        | .error r => (r, d)
        | .ok want =>
          (o.judge l file want (o.compile l file hash d).1, (o.compile l file hash d).2) := by
  cases golden : d.read (o.goldenPath file) with
  | error failure =>
    simp only [testFile, consult, bind, StateT.bind, get, getThe, MonadStateOf.get, StateT.get,
      pure, golden]
    split <;> rfl
  | ok bytes =>
    cases parsed : Golden.read? bytes with
    | none =>
      simp only [testFile, consult, bind, StateT.bind, get, getThe, MonadStateOf.get, StateT.get,
        pure, golden, parsed]
      rfl
    | some want =>
      simp only [testFile, consult, bind, StateT.bind, get, getThe, MonadStateOf.get, StateT.get,
        pure, golden, parsed]
      split
      · rfl
      · obtain ⟨got, d', compiled⟩ : ∃ got d', o.compile l file hash d = (got, d') := ⟨_, _, rfl⟩
        simp only [StateT.bind, bind, judge, compiled]
        split <;> rfl

theorem file_consult {file hash : String} {stored : Except FileFailure (List UInt8)}
    {r : TestResult} (known : o.consult file hash stored = .error r) : r.file = file := by
  cases stored with
  | error failure =>
    obtain rfl := Except.error.inj known
    split <;> rfl
  | ok bytes =>
    simp only [consult] at known
    split at known
    · obtain rfl := Except.error.inj known
      rfl
    · split at known
      · obtain rfl := Except.error.inj known
        rfl
      · exact nomatch known

theorem file_testFile (file hash : String) (d : Disk) :
    (o.testFile l file hash d).1.1.file = file := by
  rw [congrArg Prod.fst (o.testFile_eq l file hash d)]
  split
  next known => exact o.file_consult known
  next want _ =>
    simp only [judge]
    split
    · rfl
    · exact file_compare file want _ o.ignored l.difference

theorem file_answer (d : Disk) (t : Task) : (o.answer l d t).file = t.file := by
  cases t with
  | settled r => rfl
  | test file hash => exact file_testFile o l file hash d

/-! ## Tests that keep to themselves -/

/-- Two disks look the same to the test of a file. -/
structure Alike (file hash : String) (d d' : Disk) : Prop where
  source : d'.read file = d.read file
  golden : d'.read (o.goldenPath file) = d.read (o.goldenPath file)
  image : d'.read (o.imagePath hash) = d.read (o.imagePath hash)

/-- Every test leaves the files, the golden files and the images of other tests as they are. -/
structure Confined (d : Disk) (files : List String) (tests : List (String × String)) : Prop where
  tree : ∀ {file hash}, (file, hash) ∈ tests → ∀ d', d.SameTree d' → o.Alike file hash d d' →
    d.SameTree (o.testFile l file hash d').2
  sources : ∀ {file hash}, (file, hash) ∈ tests → ∀ d', d.SameTree d' → o.Alike file hash d d' →
    ∀ other ∈ files, (o.testFile l file hash d').2.read other = d'.read other
  goldens : ∀ {file hash}, (file, hash) ∈ tests →
    ∀ d', d.SameTree d' → o.Alike file hash d d' → ∀ other ∈ files,
    (o.testFile l file hash d').2.read (o.goldenPath other) = d'.read (o.goldenPath other)
  images : ∀ {file hash}, (file, hash) ∈ tests → ∀ d', d.SameTree d' → o.Alike file hash d d' →
    ∀ other ∈ tests, other.2 ≠ hash →
      (o.testFile l file hash d').2.read (o.imagePath other.2) = d'.read (o.imagePath other.2)

/-- Every test depends on its file, on its golden file and on its image alone, and leaves the files,
the golden files and the images of other tests as they are. -/
structure Separate (d : Disk) (files : List String) (tests : List (String × String)) : Prop
    extends Confined o l d files tests where
  depends : ∀ {file hash}, (file, hash) ∈ tests → ∀ d', d.SameTree d' → o.Alike file hash d d' →
    (o.testFile l file hash d').1.1 = (o.testFile l file hash d).1.1

/-- A disk still looks as at the start to all files and to some tests. -/
structure Untouched (d : Disk) (files : List String) (tests : List (String × String))
    (d' : Disk) : Prop where
  tree : d.SameTree d'
  sources : ∀ file ∈ files, d'.read file = d.read file
  goldens : ∀ file ∈ files, d'.read (o.goldenPath file) = d.read (o.goldenPath file)
  images : ∀ t ∈ tests, d'.read (o.imagePath t.2) = d.read (o.imagePath t.2)

variable {o l} {d d' : Disk} {files : List String} {tests rest : List (String × String)}
    {file hash : String}

theorem Untouched.refl : o.Untouched d files tests d :=
  ⟨⟨rfl, rfl⟩, fun _ _ => rfl, fun _ _ => rfl, fun _ _ => rfl⟩

theorem Untouched.mono (look : o.Untouched d files tests d') (fewer : rest ⊆ tests) :
    o.Untouched d files rest d' :=
  ⟨look.tree, look.sources, look.goldens, fun t mem => look.images t (fewer mem)⟩

theorem Untouched.alike (look : o.Untouched d files tests d') (known : file ∈ files)
    (mem : (file, hash) ∈ tests) : o.Alike file hash d d' :=
  ⟨look.sources file known, look.goldens file known, look.images (file, hash) mem⟩

/-- A test changes nothing for tests with other hashes. -/
theorem Confined.test (confined : o.Confined l d files tests) (mem : (file, hash) ∈ tests)
    (known : file ∈ files) (look : o.Untouched d files ((file, hash) :: rest) d')
    (fewer : rest ⊆ tests) (others : ∀ t ∈ rest, t.2 ≠ hash) :
    o.Untouched d files rest (o.testFile l file hash d').2 := by
  have alike := look.alike known List.mem_cons_self
  refine ⟨confined.tree mem d' look.tree alike, ?_, ?_, ?_⟩
  · intro other m
    exact (confined.sources mem d' look.tree alike other m).trans (look.sources other m)
  · intro other m
    exact (confined.goldens mem d' look.tree alike other m).trans (look.goldens other m)
  · intro t m
    exact (confined.images mem d' look.tree alike t (fewer m) (others t m)).trans
      (look.images t (List.mem_cons_of_mem _ m))

/-- A test gives what it gives at the start and changes nothing for tests with other hashes. -/
theorem Separate.test (apart : o.Separate l d files tests) (mem : (file, hash) ∈ tests)
    (known : file ∈ files) (look : o.Untouched d files ((file, hash) :: rest) d')
    (fewer : rest ⊆ tests) (others : ∀ t ∈ rest, t.2 ≠ hash) :
    (o.testFile l file hash d').1.1 = (o.testFile l file hash d).1.1 ∧
    o.Untouched d files rest (o.testFile l file hash d').2 :=
  ⟨apart.depends mem d' look.tree (look.alike known List.mem_cons_self),
    apart.toConfined.test mem known look fewer others⟩

/-- A result is what a task gives on a disk that looks to the task as at the start. -/
def Answers (o : TestOptions) (l : Launcher) (d : Disk) (skipped files : List String) (task : Task)
    (r : TestResult) : Prop :=
  task ∈ tasks d skipped [] files ∧ ∃ d', o.Untouched d files task.test?.toList d' ∧
    r = o.answer l d' task

/-- Doing tasks one after the other gives an answer to each of them. -/
theorem Confined.answers {skipped : List String}
    (confined : o.Confined l d files (testsOf (tasks d skipped [] files))) : List.Forall₂
    (o.Answers l d skipped files) (tasks d skipped [] files) (o.inTurn l d skipped files) := by
  have inOrder (ts : List Task) (part : ts <:+ tasks d skipped [] files) (d' : Disk)
      (look : o.Untouched d files (testsOf ts) d') :
      List.Forall₂ (o.Answers l d skipped files) ts ((ts.mapM (o.perform l) d').1.map (·.1)) := by
    induction ts generalizing d' with
    | nil => exact .nil
    | cons task ts ih =>
      have later := ih ((List.suffix_cons task ts).trans part)
      have known : task ∈ tasks d skipped [] files := part.subset List.mem_cons_self
      have unfolded : ((task :: ts).mapM (o.perform l) d').1.map (·.1) = (o.perform l task d').1.1
          :: (ts.mapM (o.perform l) (o.perform l task d').2).1.map (·.1) := by
        rw [List.mapM_cons]
        rfl
      rw [unfolded]
      cases task with
      | settled r => exact .cons ⟨known, d', look.mono (List.nil_subset _), rfl⟩ (later d' look)
      | test file hash =>
        have mem : (file, hash) ∈ testsOf (tasks d skipped [] files) :=
          (part.filterMap Task.test?).subset List.mem_cons_self
        have once :=
          (nodup_tests d skipped files).sublist ((part.filterMap Task.test?).sublist.map Prod.snd)
        have fewer : testsOf ts ⊆ testsOf (tasks d skipped [] files) := fun t m =>
          (part.filterMap Task.test?).subset (List.mem_cons_of_mem _ m)
        have others : ∀ t ∈ testsOf ts, t.2 ≠ hash := fun t m same =>
          (List.nodup_cons.mp once).1 (List.mem_map.mpr ⟨t, m, same⟩)
        have here : o.Untouched d files [(file, hash)] d' :=
          look.mono (List.cons_subset.mpr ⟨List.mem_cons_self, List.nil_subset _⟩)
        exact .cons ⟨known, d', here,
          rfl⟩ (later _ (confined.test mem (triage_of_mem_testsOf mem).1 look fewer others))
  exact inOrder _ List.suffix_rfl d .refl

theorem map_file_inTurn {skipped : List String} (answers : List.Forall₂
      (o.Answers l d skipped files) (tasks d skipped [] files) (o.inTurn l d skipped files)) :
    (o.inTurn l d skipped files).map (·.file) = files := by
  have same : List.Forall₂ (fun task r => task.file = TestResult.file r) (tasks d skipped [] files)
    (o.inTurn l d skipped files) :=
    answers.imp fun task r ⟨_, d', _, answer⟩ => answer ▸ (file_answer o l d' task).symm
  have equal :
    (tasks d skipped [] files).map Task.file = (o.inTurn l d skipped files).map (·.file) :=
    List.forall₂_eq_eq_eq ▸ List.forall₂_map_left_iff.mpr (List.forall₂_map_right_iff.mpr same)
  exact equal.symm.trans (map_file_tasks d skipped [] files)

/-- Every result is an answer to a task. -/
theorem exists_of_mem_inTurn {skipped : List String} {r : TestResult} (answers : List.Forall₂
      (o.Answers l d skipped files) (tasks d skipped [] files) (o.inTurn l d skipped files))
    (mem : r ∈ o.inTurn l d skipped files) : ∃ task, o.Answers l d skipped files task r := by
  obtain ⟨i, inside, rfl⟩ := List.getElem_of_mem mem
  have answered := answers.get (answers.length_eq ▸ inside) inside
  exact ⟨_, answered⟩

/-- Doing tasks one after the other gives for each of them what it gives at the start. -/
theorem inTurn_eq {skipped : List String}
    (apart : o.Separate l d files (testsOf (tasks d skipped [] files))) :
    o.inTurn l d skipped files = (tasks d skipped [] files).map (o.answer l d) := by
  have same : List.Forall₂ (fun task r => o.answer l d task = r) (tasks d skipped [] files)
    (o.inTurn l d skipped files) := by
    refine apart.toConfined.answers.imp fun task r ⟨known, d', look, answer⟩ => ?_
    cases task with
    | settled r' => exact answer.symm
    | test file hash =>
      have mem : (file, hash) ∈ testsOf (tasks d skipped [] files) :=
        List.mem_filterMap.mpr ⟨_, known, rfl⟩
      have alike : o.Alike file hash d d' :=
        look.alike (triage_of_mem_testsOf mem).1 List.mem_cons_self
      exact ((apart.depends mem d' look.tree alike).symm.trans answer.symm)
  exact (List.forall₂_eq_eq_eq
    ▸ List.forall₂_map_left_iff.mpr same : (tasks d skipped [] files).map _ = _).symm

/-- The hash of a content. -/
def hashFor (content : List UInt8) : String := Checksum.toHex (Checksum.ofBytes content)

theorem hashOf_eq_ok_iff {d : Disk} {path hash : String} :
    hashOf d path = .ok hash ↔ ∃ content, d.read path = .ok content ∧ hashFor content = hash := by
  cases read : d.read path <;> simp [hashOf, read, Except.map, hashFor]

/-- Hashes have digits only. -/
theorem plain_image (content : List UInt8) : Path.Plain (hashFor content ++ ".txt") := by
  have digits (n : Nat) : '/' ∉ Nat.toDigits 16 n := by
    induction n using Nat.strongRecOn with
    | ind n ih =>
      have digit (k : Nat) : '/' ≠ Nat.digitChar k := (Nat.digitChar_ne '/' rfl).symm
      rw [Nat.toDigits_eq_if (by decide)]
      split
      · simp [digit]
      · simp [digit, ih (n / 16) (by omega)]
  have long (other : String) (short : other.length < 4) (hash : String) :
    hash ++ ".txt" ≠ other := by
    rintro rfl
    rw [String.length_append] at short
    have four : (".txt" : String).length = 4 := rfl
    omega
  refine ⟨long "" (by decide) _, ?_, long "." (by decide) _, long ".." (by decide) _⟩
  rw [hashFor, Checksum.toHex, String.toList_append, String.toList_ofList, List.mem_append, not_or]
  exact ⟨digits _, by decide⟩

theorem imagePath_inj {d : Disk} {file file' hash hash' : String}
    (hashed : hashOf d file = .ok hash) (hashed' : hashOf d file' = .ok hash')
    (same : o.imagePath hash = o.imagePath hash') : hash = hash' := by
  obtain ⟨content, -, rfl⟩ := hashOf_eq_ok_iff.1 hashed
  obtain ⟨content', -, rfl⟩ := hashOf_eq_ok_iff.1 hashed'
  exact (String.append_left_inj ".txt").mp
    (Path.join_plain_inj (plain_image content) (plain_image content') same)

/-- Testing the matching files gives the results of their tasks, sorted. -/
theorem run_eq_inTurn (there : l.isThere o.compiler d = (true, d))
    (matched : Glob.expand d o.testFiles = .ok files) : ∃ lines, (o.run l d).1
    = .ok ((o.inTurn l d (o.skipFiles.map (Path.absolute d.workingDirectory)) files).mergeSort
      (fun a b => a.file ≤ b.file), lines) := by
  simp only [run, bind, StateT.bind, there]
  rw [if_neg (by simp)]
  simp only [bind, StateT.bind, get, getThe, MonadStateOf.get, StateT.get, pure, matched]
  exact ⟨_, rfl⟩

end TestOptions

/-- A compiler that rejects every program. -/
def Launcher.rejecting : Launcher :=
  ⟨fun _ => return true, fun _ _ _ => return (.ok ⟨1, "", "rejected\n"⟩, 1000000), Golden.lineDiff⟩

end BilingualC
