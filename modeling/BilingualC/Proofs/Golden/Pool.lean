import Mathlib
import BilingualC.Proofs.Golden.Tasks

/-!
# A pool of workers for the tests

The tests of a run are handed to workers over a channel, and all results come back over another. A
`Pool` is the state of such a run and a `Pool.Step` is one move of the distributor or of one worker,
so the runs of the relation are all the schedules.

Main results:
1. `Pool.Sound.step`: what every move keeps; nothing is lost or done twice.
2. `Pool.every_schedule`: no send waits, no run stands still or goes on for ever, no image path is
  used twice, and the results at the end are those of testing the files one after the other.
-/

namespace BilingualC

/-! ## The pool -/

/-- What a worker does. -/
inductive Worker where
  | idle
  | testing (file hash : String)
  /-- A result is there and has still to be sent. -/
  | holding (r : TestResult)
  | stopped
deriving DecidableEq, Repr

namespace Worker

def test? : Worker → Option (String × String)
  | testing file hash => some (file, hash)
  | _ => none

def result? : Worker → Option TestResult
  | holding r => some r
  | _ => none

/-- How many moves a worker makes at most before it waits or stops. -/
def moves : Worker → Nat
  | idle => 1
  | testing .. => 3
  | holding _ => 2
  | stopped => 0

end Worker

/-- A run of the tests on workers. -/
structure Pool where
  disk : Disk
  /-- The files that have not been looked at. -/
  waiting : List String
  /-- The first file of every hash so far: the tests that were handed out. -/
  seen : List (String × String)
  /-- The channel of the tests. -/
  jobs : List (String × String)
  workers : List Worker
  /-- The channel of the results. -/
  results : List TestResult
  /-- No test will be handed out any more. -/
  closed : Bool

namespace Pool

open TestOptions

variable {o : TestOptions} {l : Launcher} {skipped files : List String} {d : Disk}

def start (d : Disk) (files : List String) (workers : Nat) : Pool :=
  ⟨d, files, [], [], List.replicate workers .idle, [], false⟩

/-- The tests that workers are busy with. -/
def testing (s : Pool) : List (String × String) := s.workers.filterMap Worker.test?

/-- The results that workers have still to send. -/
def held (s : Pool) : List TestResult := s.workers.filterMap Worker.result?

/-- The tests that were handed out and have no result. -/
def unfinished (s : Pool) : List (String × String) := s.jobs ++ s.testing

/-- A channel holds as many entries as there are files. A send to a full channel waits, so it is no
step. -/
inductive Step (o : TestOptions) (l : Launcher) (skipped : List String) (room : Nat) :
    Pool → Pool → Prop
  /-- The distributor knows the result for a file and sends it. -/
  | settle {s : Pool} {file : String} {rest : List String}
      {r : TestResult} : s.waiting = file :: rest →
      triage s.disk skipped s.seen file = .settled r → s.results.length < room →
      Step o l skipped room s { s with waiting := rest, results := s.results ++ [r] }
  /-- The distributor hands a file out. -/
  | handOut {s : Pool} {file hash : String} {rest : List String} : s.waiting = file :: rest →
      triage s.disk skipped s.seen file = .test file hash → s.jobs.length < room →
      Step o l skipped room s
        { s with waiting := rest, seen := (hash, file) :: s.seen, jobs := s.jobs ++ [(file, hash)] }
  /-- The distributor has seen all files. -/
  | close {s : Pool} : s.waiting = [] → s.closed = false →
      Step o l skipped room s { s with closed := true }
  /-- A worker takes the next test. -/
  | take {s : Pool} {before after : List Worker}
      {file hash : String} {rest : List (String × String)} :
      s.workers = before ++ .idle :: after → s.jobs = (file, hash) :: rest → Step o l skipped room s
      { s with workers := before ++ .testing file hash :: after, jobs := rest }
  /-- A worker tests its file. -/
  | finish {s : Pool} {before after : List Worker} {file hash : String} :
      s.workers = before ++ .testing file hash :: after →
      Step o l skipped room s
        { s with
          disk := (o.testFile l file hash s.disk).2
          workers := before ++ .holding (o.testFile l file hash s.disk).1.1 :: after }
  /-- A worker sends its result. -/
  | deliver {s : Pool} {before after : List Worker} {r : TestResult} :
      s.workers = before ++ .holding r :: after → s.results.length < room → Step o l skipped room s
      { s with workers := before ++ .idle :: after, results := s.results ++ [r] }
  /-- A worker finds no test and none to come. -/
  | stop {s : Pool} {before after : List Worker} :
      s.workers = before ++ .idle :: after → s.jobs = [] →
      s.closed = true → Step o l skipped room s { s with workers := before ++ .stopped :: after }

/-- A number of steps. -/
inductive Steps (o : TestOptions) (l : Launcher) (skipped : List String) (room : Nat) : Nat →
    Pool → Pool → Prop
  | refl (s : Pool) : Steps o l skipped room 0 s s
  | tail {n : Nat} {s s' s'' : Pool} : Steps o l skipped room n s s' →
      Step o l skipped room s' s'' → Steps o l skipped room (n + 1) s s''

/-- All workers are done, so the results can be collected. -/
def Finished (s : Pool) : Prop := s.waiting = [] ∧ s.closed = true ∧ ∀ w ∈ s.workers, w = .stopped

/-! ## What every move keeps -/

/-- A state of a run on files: every task is done, handed out or still to come, and every task that
is done has its result in the channel or with a worker. -/
structure Sound (o : TestOptions) (l : Launcher) (skipped : List String) (d : Disk)
    (files : List String) (s : Pool) : Prop where
  untouched :
    o.Untouched d files (s.unfinished ++ testsOf (tasks d skipped s.seen s.waiting)) s.disk
  toCome : s.waiting <:+ files
  accounted : ∃ done finished, tasks d skipped [] files = done ++ tasks d skipped s.seen s.waiting
    ∧ done.Perm (finished ++ s.unfinished.map fun t => .test t.1 t.2)
    ∧ (s.results ++ s.held).Perm (finished.map (o.answer l d))
  handed : s.unfinished ⊆ s.seen.map Prod.swap
  noted : s.seen.map Prod.swap ⊆ testsOf (tasks d skipped [] files)
  once : (s.seen.map Prod.fst).Nodup
  closing : s.closed = true → s.waiting = []
  stopping : .stopped ∈ s.workers → s.closed = true ∧ s.jobs = []
  staffed : s.workers ≠ []

variable {s s' : Pool}

theorem Sound.start {workers : Nat} (some : 0 < workers) :
    Sound o l skipped d files (start d files workers) := by
  have none : (Pool.start d files workers).unfinished = [] := by
    simp [Pool.start, unfinished, testing, List.filterMap_replicate, Worker.test?]
  have none' : (Pool.start d files workers).held = [] := by
    simp [Pool.start, held, List.filterMap_replicate, Worker.result?]
  refine ⟨.refl, List.suffix_rfl, ⟨[], [], rfl, ?_, ?_⟩, ?_, List.nil_subset _,
    List.nodup_nil, ?_, ?_, ?_⟩
  · rw [none]
    exact .refl _
  · rw [none']
    exact .refl _
  · rw [none]
    exact List.nil_subset _
  · exact fun closed => nomatch closed
  · intro mem
    exact nomatch List.eq_of_mem_replicate mem
  · simpa [Pool.start] using some.ne'

namespace Sound

/-- The tasks to come, seen from the next file. -/
theorem tasks_of_waiting (sound : Sound o l skipped d files s) {file : String} {rest : List String}
    (next : s.waiting = file :: rest) :
    tasks d skipped s.seen s.waiting = triage s.disk skipped s.seen file
      :: tasks d skipped ((triage s.disk skipped s.seen file).note s.seen) rest := by
  have known : file ∈ files := sound.toCome.subset (next ▸ List.mem_cons_self)
  rw [triage_congr (sound.untouched.sources file known), next, tasks]

theorem settle (sound : Sound o l skipped d files s)
    {file : String} {rest : List String} {r : TestResult}
    (next : s.waiting = file :: rest) (task : triage s.disk skipped s.seen file = .settled r) :
    Sound o l skipped d files { s with waiting := rest, results := s.results ++ [r] } := by
  have cut := sound.tasks_of_waiting next
  rw [task] at cut
  have look := sound.untouched
  rw [cut, testsOf_settled] at look
  obtain ⟨done, finished, all, doneOnce, answers⟩ := sound.accounted
  have opened : s.closed = true → rest = [] :=
    fun closed => nomatch next.symm.trans (sound.closing closed)
  refine { sound with untouched := look, toCome := ?_, accounted := ?_, closing := opened }
  · exact (List.suffix_cons file rest).trans (next ▸ sound.toCome)
  · refine ⟨done ++ [.settled r], finished ++ [.settled r], ?_, ?_, ?_⟩
    · rw [all, cut]
      simp [Task.note]
    · refine List.perm_iff_count.mpr fun t => ?_
      have counts := List.perm_iff_count.mp doneOnce t
      simp only [unfinished, testing, List.count_append] at counts ⊢
      omega
    · refine List.perm_iff_count.mpr fun r' => ?_
      have counts := List.perm_iff_count.mp answers r'
      have same : o.answer l d (.settled r) = r := rfl
      simp only [held, List.map_append, List.map_cons, List.map_nil, same,
        List.count_append] at counts ⊢
      omega

theorem handOut (sound : Sound o l skipped d files s) {file hash : String} {rest : List String}
    (next : s.waiting = file :: rest) (task : triage s.disk skipped s.seen file = .test file hash) :
    Sound o l skipped d files { s with
      waiting := rest
      seen := (hash, file) :: s.seen
      jobs := s.jobs ++ [(file, hash)] } := by
  have cut := sound.tasks_of_waiting next
  rw [task] at cut
  have look := sound.untouched
  rw [cut, testsOf_test] at look
  obtain ⟨done, finished, all, doneOnce, answers⟩ := sound.accounted
  have opened : s.closed = true → rest = [] :=
    fun closed => nomatch next.symm.trans (sound.closing closed)
  have unseen : hash ∉ s.seen.map Prod.fst := by
    rw [List.mem_map]
    rintro ⟨first, mem, rfl⟩
    simpa using List.lookup_eq_none_iff.mp (triage_test task).2.2 first mem
  refine ⟨look.mono ?_, (List.suffix_cons file rest).trans (next ▸ sound.toCome),
    ⟨done ++ [.test file hash], finished, ?_, ?_, answers⟩, ?_, ?_,
    List.nodup_cons.mpr ⟨unseen, sound.once⟩, opened, fun mem => ?_, sound.staffed⟩
  · intro t mem
    simp only [unfinished, testing, List.mem_append, List.mem_cons] at mem ⊢
    tauto
  · rw [all, cut]
    simp [Task.note]
  · refine List.perm_iff_count.mpr fun t => ?_
    have counts := List.perm_iff_count.mp doneOnce t
    simp only [unfinished, testing, List.map_append, List.map_cons, List.map_nil,
      List.count_append] at counts ⊢
    omega
  · intro t mem
    have handed := @sound.handed t
    simp only [unfinished, testing, List.mem_append, List.mem_cons, List.map_cons] at mem handed ⊢
    tauto
  · have mem : (file, hash) ∈ testsOf (tasks d skipped [] files) := by
      rw [all, cut, testsOf, List.filterMap_append]
      exact List.mem_append_right _ List.mem_cons_self
    exact List.cons_subset.mpr ⟨mem, sound.noted⟩
  · exact nomatch next.symm.trans (sound.closing (sound.stopping mem).1)

theorem close (sound : Sound o l skipped d files s) (none : s.waiting = []) :
    Sound o l skipped d files { s with closed := true } :=
  { sound with closing := fun _ => none, stopping := fun mem => ⟨rfl, (sound.stopping mem).2⟩ }

/-- Tests and results only change hands. -/
theorem shift (sound : Sound o l skipped d files s)
    {jobs : List (String × String)} {workers : List Worker}
    {results : List TestResult} (tests : (jobs ++ workers.filterMap Worker.test?).Perm s.unfinished)
    (known : (results ++ workers.filterMap Worker.result?).Perm (s.results ++ s.held))
    (stopping : .stopped ∈ workers → s.closed = true ∧ jobs = []) (staffed : workers ≠ []) :
    Sound o l skipped d files { s with jobs, workers, results } := by
  obtain ⟨done, finished, all, doneOnce, answers⟩ := sound.accounted
  refine { sound with
    untouched := sound.untouched.mono ?_
    accounted := ⟨done, finished, all, ?_, ?_⟩
    handed := ?_
    stopping
    staffed }
  · exact List.append_subset.mpr ⟨fun t mem => List.mem_append_left _ (tests.subset mem),
      List.subset_append_right _ _⟩
  · exact doneOnce.trans (.append_left _ (tests.map _).symm)
  · exact known.trans answers
  · exact fun t mem => sound.handed (tests.subset mem)

theorem take (sound : Sound o l skipped d files s) {before after : List Worker} {file hash : String}
    {rest : List (String × String)} (free : s.workers = before ++ .idle :: after)
    (next : s.jobs = (file, hash) :: rest) : Sound o l skipped d files { s with
      workers := before ++ .testing file hash :: after, jobs := rest } := by
  refine sound.shift ?_ ?_ (fun mem => ?_) (by simp)
  · refine List.perm_iff_count.mpr fun t => ?_
    simp [unfinished, testing, free, next, Worker.test?, List.filterMap_cons, List.count_cons]
    omega
  · simp [held, free, Worker.result?, List.filterMap_cons]
  · have stopped : .stopped ∈ s.workers := by simpa [free] using mem
    exact nomatch next.symm.trans (sound.stopping stopped).2

theorem deliver (sound : Sound o l skipped d files s) {before after : List Worker} {r : TestResult}
    (busy : s.workers = before ++ .holding r :: after) : Sound o l skipped d files { s with
      workers := before ++ .idle :: after, results := s.results ++ [r] } := by
  refine sound.shift ?_ ?_ (fun mem => sound.stopping ?_) (by simp)
  · simp [unfinished, testing, busy, Worker.test?, List.filterMap_cons]
  · refine List.perm_iff_count.mpr fun r' => ?_
    simp [held, busy, Worker.result?, List.filterMap_cons, List.count_cons]
    omega
  · simpa [busy] using mem

theorem stop (sound : Sound o l skipped d files s) {before after : List Worker}
    (free : s.workers = before ++ .idle :: after) (none : s.jobs = []) (closed : s.closed = true) :
    Sound o l skipped d files { s with workers := before ++ .stopped :: after } := by
  refine sound.shift ?_ ?_ (fun _ => ⟨closed, none⟩) (by simp)
  · simp [unfinished, testing, free, Worker.test?, List.filterMap_cons]
  · simp [held, free, Worker.result?, List.filterMap_cons]

/-- The tests that were handed out and those to come are tests of the run, each with a hash of its
own. -/
theorem open_tests (sound : Sound o l skipped d files s) :
    s.unfinished ++ testsOf (tasks d skipped s.seen s.waiting) ⊆ testsOf (tasks d skipped [] files)
      ∧ ((s.unfinished ++ testsOf (tasks d skipped s.seen s.waiting)).map Prod.snd).Nodup := by
  obtain ⟨done, finished, all, doneOnce, -⟩ := sound.accounted
  have back (ts : List (String × String)) : testsOf (ts.map fun t => .test t.1 t.2) = ts := by
    simp [testsOf, List.filterMap_map, Function.comp_def, Task.test?]
  have tests : (testsOf (tasks d skipped [] files)).Perm
      (testsOf finished ++ (s.unfinished ++ testsOf (tasks d skipped s.seen s.waiting))) := by
    have split := doneOnce.filterMap Task.test?
    rw [List.filterMap_append] at split
    rw [all, testsOf, List.filterMap_append, ← List.append_assoc]
    refine .append_right _ (split.trans ?_)
    exact .of_eq (congrArg _ (back s.unfinished))
  refine ⟨fun t mem => tests.symm.subset (List.mem_append_right _ mem), ?_⟩
  have once := (tests.map Prod.snd).nodup_iff.mp (nodup_tests d skipped files)
  exact once.sublist ((List.sublist_append_right _ _).map _)

theorem finish (sound : Sound o l skipped d files s)
    (apart : o.Separate l d files (testsOf (tasks d skipped [] files))) {before after : List Worker}
    {file hash : String}
    (busy : s.workers = before ++ .testing file hash :: after) :
    Sound o l skipped d files
      { s with
        disk := (o.testFile l file hash s.disk).2
        workers := before ++ .holding (o.testFile l file hash s.disk).1.1 :: after } := by
  let toCome := testsOf (tasks d skipped s.seen s.waiting)
  let others := s.jobs ++ before.filterMap Worker.test? ++ after.filterMap Worker.test?
  have current : s.unfinished.Perm ((file, hash) :: others) := by
    refine List.perm_iff_count.mpr fun t => ?_
    simp [others, unfinished, testing, busy, Worker.test?, List.count_cons]
    omega
  have remaining : (s.unfinished ++ toCome).Perm ((file, hash) :: (others ++ toCome)) :=
    current.append_right toCome
  obtain ⟨known, once⟩ := sound.open_tests
  have mem : (file, hash) ∈ testsOf (tasks d skipped [] files) :=
    known (remaining.symm.subset List.mem_cons_self)
  have different : ∀ t ∈ others ++ toCome, t.2 ≠ hash := fun t m same =>
    (List.nodup_cons.mp ((remaining.map Prod.snd).nodup_iff.mp once)).1
      (List.mem_map.mpr ⟨t, m, same⟩)
  obtain ⟨result, look⟩ :=
    apart.test mem (triage_of_mem_testsOf mem).1 (sound.untouched.mono remaining.symm.subset)
    (fun t m => known (remaining.symm.subset (List.mem_cons_of_mem _ m))) different
  obtain ⟨done, finished, all, doneOnce, answers⟩ := sound.accounted
  have left : ({ s with
      disk := (o.testFile l file hash s.disk).2
      workers :=
        before ++ .holding (o.testFile l file hash s.disk).1.1 :: after } : Pool).unfinished =
      others := by
    simp [others, unfinished, testing, Worker.test?, List.filterMap_cons]
  refine ⟨?_, sound.toCome, ⟨done, .test file hash :: finished, all, ?_, ?_⟩, ?_, sound.noted,
    sound.once, sound.closing, fun stopped => sound.stopping ?_, by simp⟩
  · rw [left]
    exact look
  · rw [left]
    refine doneOnce.trans ((current.map _).append_left finished |>.trans ?_)
    exact List.perm_middle
  · refine List.perm_iff_count.mpr fun r => ?_
    have counts := List.perm_iff_count.mp answers r
    have same : (o.testFile l file hash s.disk).1.1 = o.answer l d (.test file hash) := result
    simp [held, busy, Worker.result?, List.filterMap_cons, List.count_cons, same] at counts ⊢
    omega
  · rw [left]
    exact fun t m => sound.handed (current.symm.subset (List.mem_cons_of_mem _ m))
  · simpa [busy] using stopped

end Sound

/-- Every move keeps the pool sound. -/
theorem Sound.step (sound : Sound o l skipped d files s)
    (apart : o.Separate l d files (testsOf (tasks d skipped [] files))) {room : Nat}
    (move : Step o l skipped room s s') : Sound o l skipped d files s' := by
  cases move with
  | settle next task _ => exact sound.settle next task
  | handOut next task _ => exact sound.handOut next task
  | close none _ => exact sound.close none
  | take free next => exact sound.take free next
  | finish busy => exact sound.finish apart busy
  | deliver busy _ => exact sound.deliver busy
  | stop free none closed => exact sound.stop free none closed

/-! ## Every schedule -/

namespace Sound

/-- Every file is accounted for. -/
theorem count (sound : Sound o l skipped d files s) :
    s.results.length + s.held.length + s.unfinished.length + s.waiting.length = files.length := by
  obtain ⟨done, finished, all, doneOnce, answers⟩ := sound.accounted
  have tasksOf (seen : List (String × String)) (fs : List String) :
    (tasks d skipped seen fs).length = fs.length := by
    rw [← List.length_map (f := Task.file), map_file_tasks]
  have total := congrArg List.length all
  have part := doneOnce.length_eq
  have known := answers.length_eq
  simp only [List.length_append, List.length_map, tasksOf] at total part known
  omega

/-- Neither channel is full while there is something to send. -/
theorem room (sound : Sound o l skipped d files s) :
    (s.waiting ≠ [] → s.results.length < files.length ∧ s.jobs.length < files.length)
      ∧ ∀ r, .holding r ∈ s.workers → s.results.length < files.length := by
  have count := sound.count
  constructor
  · intro more
    have := List.length_pos_of_ne_nil more
    simp only [unfinished, List.length_append] at count
    omega
  · intro r mem
    have : 0 < s.held.length := List.length_pos_of_mem (List.mem_filterMap.mpr ⟨_, mem, rfl⟩)
    omega

/-- A pool that is not done has a move. -/
theorem moves (sound : Sound o l skipped d files s) (busy : ¬ s.Finished) :
    ∃ s', Step o l skipped files.length s s' := by
  obtain ⟨toSend, toDeliver⟩ := sound.room
  cases waiting : s.waiting with
  | cons file rest =>
    obtain ⟨forResult, forJob⟩ := toSend (by simp [waiting])
    cases task : triage s.disk skipped s.seen file with
    | settled r => exact ⟨_, .settle waiting task forResult⟩
    | test file' hash =>
      obtain ⟨rfl, -⟩ := triage_test task
      exact ⟨_, .handOut waiting task forJob⟩
  | nil =>
    cases closed : s.closed with
    | false => exact ⟨_, .close waiting closed⟩
    | true =>
      obtain ⟨w, mem, running⟩ : ∃ w ∈ s.workers, w ≠ .stopped := by
        simpa [Finished, waiting, closed] using busy
      obtain ⟨before, after, split⟩ := List.append_of_mem mem
      cases w with
      | idle =>
        cases jobs : s.jobs with
        | nil => exact ⟨_, .stop split jobs closed⟩
        | cons t rest => exact ⟨_, .take split jobs⟩
      | testing file hash => exact ⟨_, .finish split⟩
      | holding r => exact ⟨_, .deliver split (toDeliver r mem)⟩
      | stopped => exact absurd rfl running

/-- At the end the channel holds what the tasks give at the start. -/
theorem results_perm (sound : Sound o l skipped d files s) (finished : s.Finished) :
    s.results.Perm ((tasks d skipped [] files).map (o.answer l d)) := by
  obtain ⟨none, -, stopped⟩ := finished
  obtain ⟨w, mem⟩ := List.exists_mem_of_ne_nil _ sound.staffed
  have noJobs := (sound.stopping (stopped w mem ▸ mem)).2
  have noTests : s.testing = [] := List.filterMap_eq_nil_iff.mpr fun w mem => stopped w mem ▸ rfl
  have noneHeld : s.held = [] := List.filterMap_eq_nil_iff.mpr fun w mem => stopped w mem ▸ rfl
  obtain ⟨done, finished, all, doneOnce, answers⟩ := sound.accounted
  rw [none, tasks, List.append_nil] at all
  rw [unfinished, noJobs, noTests, List.append_nil, List.map_nil, List.append_nil] at doneOnce
  rw [noneHeld, List.append_nil] at answers
  rw [all]
  exact answers.trans (doneOnce.symm.map _)

end Sound

/-- How many moves a pool makes at most. -/
def movesLeft (s : Pool) : Nat :=
  4 * s.waiting.length + 3 * s.jobs.length + (s.workers.map Worker.moves).sum + if s.closed
    then 0 else 1

theorem Step.movesLeft {room : Nat} (move : Step o l skipped room s s') :
    s'.movesLeft < s.movesLeft := by
  cases move with
  | settle next _ _ => simp [Pool.movesLeft, next]
  | handOut next _ _ => simp [Pool.movesLeft, next]; omega
  | close _ opened => simp [Pool.movesLeft, opened]
  | take free next => simp [Pool.movesLeft, free, next, Worker.moves]; omega
  | finish busy => simp [Pool.movesLeft, busy, Worker.moves]
  | deliver busy _ => simp [Pool.movesLeft, busy, Worker.moves]
  | stop free _ _ => simp [Pool.movesLeft, free, Worker.moves]

theorem Steps.movesLeft {n room : Nat} (run : Steps o l skipped room n s s') :
    n + s'.movesLeft ≤ s.movesLeft := by
  induction run with
  | refl s => omega
  | tail _ move ih =>
    have := move.movesLeft
    omega

theorem Steps.sound {n room : Nat} (run : Steps o l skipped room n s s')
    (sound : Sound o l skipped d files s)
    (apart : o.Separate l d files (testsOf (tasks d skipped [] files))) :
    Sound o l skipped d files s' := by
  induction run with
  | refl s => exact sound
  | tail _ move ih => exact (ih sound).step apart move

/-- Whatever moves the distributor and the workers make, in whatever order: no channel is full when
something is to be sent, the pool comes to its end, no two tests have the same image, and the
results at the end, once sorted, are those of testing the files one after the other. -/
theorem every_schedule {workers : Nat} (some : 0 < workers) (distinct : files.Nodup)
    (apart : o.Separate l d files (testsOf (tasks d skipped [] files))) {n : Nat} {s : Pool}
    (run : Steps o l skipped files.length n (start d files workers) s) :
    ((s.waiting ≠ [] → s.results.length < files.length ∧ s.jobs.length < files.length) ∧
      ∀ r, .holding r ∈ s.workers → s.results.length < files.length) ∧
    n ≤ 4 * files.length + workers + 1 ∧ (¬ s.Finished → ∃ s', Step o l skipped files.length s s') ∧
    s.unfinished ⊆ s.seen.map Prod.swap ∧ s.unfinished.Nodup ∧
    (s.seen.map fun t => o.imagePath t.1).Nodup ∧
    (s.Finished → (s.results.map (·.file)).Perm files ∧ ∀ sorted : List TestResult,
      sorted.Perm s.results → sorted.Pairwise (fun a b => a.file ≤ b.file) →
      sorted = (o.inTurn l d skipped files).mergeSort (fun a b => a.file ≤ b.file) ∧
      (l.isThere o.compiler d = (true, d) → Glob.expand d o.testFiles = .ok files →
      skipped = o.skipFiles.map (Path.absolute d.workingDirectory) →
      ∃ lines, (o.run l d).1 = .ok (sorted, lines))) := by
  have sound : Sound o l skipped d files s := run.sound (.start some) apart
  have bound : n ≤ 4 * files.length + workers + 1 := by
    have := run.movesLeft
    simp [Pool.movesLeft, start, Worker.moves] at this
    omega
  have once : s.unfinished.Nodup := by
    have := sound.open_tests.2
    rw [List.map_append, List.nodup_append] at this
    exact this.1.of_map
  -- a file is tested once for each content, and the path of an image tells the contents apart
  have images : (s.seen.map fun t => o.imagePath t.1).Nodup := by
    have different : s.seen.Pairwise fun t t' => t.1 ≠ t'.1 := List.pairwise_map.mp sound.once
    refine List.pairwise_map.mpr (different.imp_of_mem fun {t t'} mem mem' ne same => ne ?_)
    have hashed {t : String × String} (mem : t ∈ s.seen) : hashOf d t.2 = .ok t.1 :=
      (triage_of_mem_testsOf (sound.noted (List.mem_map_of_mem mem))).2
    exact imagePath_inj (hashed mem) (hashed mem') same
  refine ⟨sound.room, bound, sound.moves, sound.handed, once, images, ?_⟩
  intro finished
  have results := sound.results_perm finished
  have perFile : (s.results.map (·.file)).Perm files := by
    have := results.map (·.file)
    rw [List.map_map, Function.comp_def] at this
    simp only [file_answer] at this
    exact this.trans (.of_eq (map_file_tasks d skipped [] files))
  refine ⟨perFile, fun sorted perm inOrder => ?_⟩
  have same : sorted = (o.inTurn l d skipped files).mergeSort (fun a b => a.file ≤ b.file) := by
    have listed : sorted.Perm (o.inTurn l d skipped files) :=
      perm.trans (results.trans (.of_eq (inTurn_eq apart).symm))
    have onePer : (sorted.map (·.file)).Nodup := ((perm.map _).trans perFile).nodup_iff.mpr distinct
    -- each file has one result, so sorting by files leaves no choice
    have sameFile (a b : TestResult) (inSorted : a ∈ sorted)
        (inTurn : b ∈ (o.inTurn l d skipped files).mergeSort (fun a b => a.file ≤ b.file))
        (le : a.file ≤ b.file) (ge : b.file ≤ a.file) : a = b := by
      have inSorted' : b ∈ sorted := listed.symm.subset ((List.mergeSort_perm _ _).subset inTurn)
      exact List.inj_on_of_nodup_map onePer inSorted inSorted' (le_antisymm le ge)
    have transitive (a b c : TestResult) (ab : decide (a.file ≤ b.file) = true)
        (bc : decide (b.file ≤ c.file) = true) : decide (a.file ≤ c.file) = true :=
      decide_eq_true (le_trans (of_decide_eq_true ab) (of_decide_eq_true bc))
    have total (a b : TestResult) :
        (decide (a.file ≤ b.file) || decide (b.file ≤ a.file)) = true := by
      simpa using le_total a.file b.file
    have ordered := List.pairwise_mergeSort transitive total (o.inTurn l d skipped files)
    exact List.Perm.eq_of_pairwise sameFile inOrder (by simpa using ordered)
      (listed.trans (List.mergeSort_perm _ _).symm)
  refine ⟨same, fun there matched skips => ?_⟩
  rw [same, skips]
  exact run_eq_inTurn there matched

end Pool

namespace TestOptions

theorem compile_rejecting (o : TestOptions) (source hash : String) :
    ∃ g, ∀ d, o.compile .rejecting source hash d = (g, d) := by
  by_cases spent : o.timeout ≤ 0
  · refine ⟨{ Golden.blank with
      sourceHash := hash
      compile := ⟨Text.replaceAll "" source (Path.base source), -1, 0, true⟩ }, fun d => ?_⟩
    simp [compile, execute, spent, bind, StateT.bind, pure, StateT.pure]
  · let late : Bool := o.timeout ≤ 1000000
    refine ⟨{ Golden.blank with
      sourceHash := hash
      compile := ⟨Text.replaceAll "rejected\n" source (Path.base source), if late then -1 else 1,
        1000000, late⟩ },
      fun d => ?_⟩
    by_cases soon : o.timeout ≤ 1000000 <;> simp [compile, execute, Launcher.rejecting, spent, late,
      soon, bind, StateT.bind, pure, StateT.pure]

theorem testFile_rejecting (o : TestOptions) (file hash : String) (d d' : Disk)
    (same : d'.read (o.goldenPath file) = d.read (o.goldenPath file)) :
    (o.testFile .rejecting file hash d').1.1 = (o.testFile .rejecting file hash d).1.1
      ∧ (o.testFile .rejecting file hash d').2 = d' := by
  obtain ⟨g, compiled⟩ := o.compile_rejecting file hash
  have here := o.testFile_eq .rejecting file hash d
  have there := o.testFile_eq .rejecting file hash d'
  rw [same] at there
  cases known : o.consult file hash (d.read (o.goldenPath file)) with
  | error r =>
    rw [known] at here there
    exact ⟨(congrArg Prod.fst there).trans (congrArg Prod.fst here).symm, congrArg Prod.snd there⟩
  | ok want =>
    rw [known] at here there
    simp only [compiled] at here there
    exact ⟨(congrArg Prod.fst there).trans (congrArg Prod.fst here).symm, congrArg Prod.snd there⟩

theorem separate_rejecting (o : TestOptions) (d : Disk) (files : List String)
    (tests : List (String × String)) : o.Separate .rejecting d files tests where
  depends {file hash} _ d' _ alike := (o.testFile_rejecting file hash d d' alike.golden).1
  tree {file hash} _ d' tree _ := by rwa [(o.testFile_rejecting file hash d' d' rfl).2]
  sources {file hash} _ d' _ _ other _ := by rw [(o.testFile_rejecting file hash d' d' rfl).2]
  goldens {file hash} _ d' _ _ other _ := by rw [(o.testFile_rejecting file hash d' d' rfl).2]
  images {file hash} _ d' _ _ other _ _ := by rw [(o.testFile_rejecting file hash d' d' rfl).2]

end TestOptions

/-- Two files of the same content and one that is gone, tested by two workers. -/
theorem Pool.every_schedule_twins :
    let o : TestOptions := ⟨"cc", [], "*.c", [], "", "", [], 5000000000, false, false, "/scratch"⟩
    let d : Disk := ⟨[(["a.c"], [120]), (["b.c"], [120])], [["scratch"]], []⟩
    let files := ["/a.c", "/b.c", "/c.c"]
    0 < 2 ∧ files.Nodup ∧
      o.Separate .rejecting d files (TestOptions.testsOf (TestOptions.tasks d [] [] files)) ∧
      ∀ n s, Pool.Steps o .rejecting [] files.length n (Pool.start d files 2) s →
      n ≤ 15 ∧ (s.Finished → (s.results.map (·.file)).Perm files) := by
  intro o d files
  have apart := o.separate_rejecting d files (TestOptions.testsOf (TestOptions.tasks d [] [] files))
  refine ⟨by decide, by decide, apart, fun n s run => ?_⟩
  obtain ⟨-, bound, -, -, -, -, results⟩ := Pool.every_schedule (by decide) (by decide) apart run
  exact ⟨bound, fun finished => (results finished).1⟩

end BilingualC
