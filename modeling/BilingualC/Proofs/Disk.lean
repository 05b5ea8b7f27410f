import Mathlib
import BilingualC.Disk

/-!
# Reading and writing files by place

Where a path leads depends on the directories alone, so writing a file changes what is read from the
paths that lead to its place and from no other.

Main results: `Disk.content?_write` and `Disk.content?_write_of_ne`.
-/

namespace BilingualC.Disk

variable {d d' : Disk}

/-- Two disks have the same directories. -/
def SameTree (d d' : Disk) : Prop :=
  d'.directories = d.directories ∧ d'.workingPlace = d.workingPlace

theorem SameTree.refl (d : Disk) : SameTree d d := ⟨rfl, rfl⟩

theorem SameTree.trans {d'' : Disk} (first : SameTree d d') (second : SameTree d' d'') :
    SameTree d d'' :=
  ⟨second.1.trans first.1, second.2.trans first.2⟩

theorem sameTree_put (d : Disk) (p : Place) (content : List UInt8) : SameTree d (d.put p content) :=
  ⟨rfl, rfl⟩

theorem entryAt?_eq_directory_iff {p : Place} :
    d.entryAt? p = some .directory ↔ p.isEmpty || d.directories.contains p := by
  rw [entryAt?]
  split
  next here => simpa using here
  next no => cases d.files.lookup p <;> simpa using no

theorem requireDirectory_eq_ok_iff {p : Place} :
    d.requireDirectory p = .ok () ↔ p.isEmpty || d.directories.contains p := by
  rw [← entryAt?_eq_directory_iff, requireDirectory]
  cases d.entryAt? p with
  | none => simp
  | some entry => cases entry <;> simp

/-- The place that components lead to, if they lead anywhere. -/
def follow? (d : Disk) (p : Place) (names : List String) : Option Place :=
  (d.follow p names).toOption

theorem follow?_of_cons {p q : Place} {name : String}
    {rest : List String} (leads : d.follow? p (name :: rest) = some q) :
    d.follow? (if name == "." then p else if name == ".." then p.dropLast else p ++ [name]) rest =
    some q := by
  rw [follow?, follow] at leads
  cases here : d.requireDirectory p with
  | error e =>
    rw [here] at leads
    exact nomatch leads
  | ok u =>
    rw [here] at leads
    simp only [bind, Except.bind] at leads
    split at leads
    · exact nomatch leads
    · exact leads

/-- The place that a path leads to, if it leads anywhere. -/
def place? (d : Disk) (path : String) : Option Place :=
  if path.isEmpty then none
    else d.follow? (if Path.isAbsolute path then [] else d.workingPlace) (Path.components path)

theorem follow?_congr (same : SameTree d d') (p : Place) (names : List String) :
    d'.follow? p names = d.follow? p names := by
  induction names generalizing p with
  | nil => rfl
  | cons name rest ih =>
    have enter : d'.requireDirectory p = .ok () ↔ d.requireDirectory p = .ok () := by
      rw [requireDirectory_eq_ok_iff, requireDirectory_eq_ok_iff, same.1]
    simp only [follow?, follow, bind, Except.bind] at ih ⊢
    cases here : d.requireDirectory p with
    | ok u =>
      rw [enter.mpr here]
      dsimp only
      split
      · rfl
      · exact ih _
    | error e =>
      cases there : d'.requireDirectory p with
      | ok u => exact absurd (enter.mp there) (by simp [here])
      | error e' => rfl

theorem place?_congr (same : SameTree d d') (path : String) : d'.place? path = d.place? path := by
  rw [place?, place?, same.2]
  split
  · rfl
  · exact follow?_congr same _ _

/-- What stands in the file at a place. -/
def fileAt? (d : Disk) (p : Place) : Option (List UInt8) :=
  match d.entryAt? p with
  | some (.file content) => some content
  | _ => none

/-- What is read from a path, if it leads to a file. -/
def content? (d : Disk) (path : String) : Option (List UInt8) := (d.read path).toOption

/-- A path that ends with a slash does not lead to the file at its place. -/
theorem resolve_eq_ok_iff {path : String} {p : Place} : d.resolve path = .ok p ↔
    d.place? path = some p ∧ (Text.endsWith "/" path = true → d.fileAt? p = none) := by
  rw [resolve, place?]
  cases path.isEmpty with
  | true => simp [throw, throwThe, MonadExceptOf.throw, bind, Except.bind]
  | false =>
    simp only [Bool.false_eq_true, if_false, follow?]
    cases d.follow (if Path.isAbsolute path then [] else d.workingPlace) (Path.components path) with
    | error e => simp [bind, Except.bind, Except.toOption]
    | ok place =>
      simp only [fileAt?, bind, Except.bind, pure, Except.pure, Except.toOption, Option.some.injEq]
      cases entry : d.entryAt? place with
      | none => constructor <;> rintro ⟨⟩ <;> simp_all
      | some e =>
        cases e with
        | directory => constructor <;> rintro ⟨⟩ <;> simp_all
        | file content =>
          cases Text.endsWith "/" path
          · constructor <;> rintro ⟨⟩ <;> simp_all
          · simp only [if_true, throw, throwThe, MonadExceptOf.throw, reduceCtorEq, false_iff,
              not_and, forall_const]
            rintro rfl
            simp [entry]

theorem fileAt?_eq_some_iff {p : Place} {content : List UInt8} :
    d.fileAt? p = some content ↔ d.entryAt? p = some (.file content) := by
  rw [fileAt?]
  cases d.entryAt? p with
  | none => simp
  | some entry => cases entry <;> simp

theorem mem_files_of_fileAt? {p : Place} {content : List UInt8}
    (here : d.fileAt? p = some content) : p ∈ d.files.map Prod.fst := by
  rw [fileAt?_eq_some_iff, entryAt?] at here
  split at here
  · exact nomatch here
  · obtain ⟨found, looked, -⟩ := Option.map_eq_some_iff.mp here
    obtain ⟨before, after, split, -⟩ := List.lookup_eq_some_iff.mp looked
    rw [split, List.map_append, List.map_cons]
    exact List.mem_append_right _ List.mem_cons_self

theorem content?_eq_some_iff {path : String} {content : List UInt8} :
    d.content? path = some content ↔
    ∃ p, d.place? path = some p ∧ Text.endsWith "/" path = false ∧ d.fileAt? p = some content := by
  have found (p : Place) (resolved : d.resolve path = .ok p) : d.content? path = d.fileAt? p := by
    rw [content?, read, lookup, resolved, fileAt?]
    simp only [bind, Except.bind]
    cases d.entryAt? p with
    | none => rfl
    | some entry => cases entry <;> rfl
  constructor
  · intro here
    cases resolved : d.resolve path with
    | error e =>
      rw [content?, read, lookup, resolved] at here
      exact nomatch here
    | ok p =>
      rw [found p resolved] at here
      obtain ⟨leads, slash⟩ := resolve_eq_ok_iff.1 resolved
      refine ⟨p, leads, ?_, here⟩
      by_contra ends
      rw [slash (by simpa using ends)] at here
      exact nomatch here
  · rintro ⟨p, leads, whole, here⟩
    rw [found p (resolve_eq_ok_iff.2 ⟨leads, by simp [whole]⟩), here]

theorem write_eq_ok_iff {path : String} {content : List UInt8} :
    d.write path content = .ok d' ↔ ∃ p, d.place? path = some p ∧ d.entryAt? p ≠ some .directory
      ∧ Text.endsWith "/" path = false ∧ d' = d.put p content := by
  rw [write]
  constructor
  · intro written
    cases resolved : d.resolve path with
    | error e => simp [resolved] at written
    | ok p =>
      simp only [resolved] at written
      split at written
      · exact nomatch written
      next fine =>
        simp only [Bool.or_eq_true, beq_iff_eq, not_or, Bool.not_eq_true] at fine
        exact ⟨p, (resolve_eq_ok_iff.1 resolved).1, fine.1, fine.2, (Except.ok.inj written).symm⟩
  · rintro ⟨p, leads, noDirectory, whole, rfl⟩
    simp only [resolve_eq_ok_iff.2 ⟨leads, by simp [whole]⟩, whole, Bool.or_false, beq_iff_eq]
    rw [if_neg noDirectory]

theorem lookup_filter_ne {p q : Place} (ne : q ≠ p) (files : List (Place × List UInt8)) :
    (files.filter (·.1 != p)).lookup q = files.lookup q := by
  induction files with
  | nil => rfl
  | cons file rest ih =>
    obtain ⟨place, content⟩ := file
    by_cases same : place = p
    · have other : (q == place) = false := by simpa [same] using ne
      rw [List.filter_cons, if_neg (by simpa using same), ih, List.lookup_cons, other]
    · rw [List.filter_cons, if_pos (by simpa using same), List.lookup_cons, List.lookup_cons, ih]

theorem fileAt?_put {p : Place} (noDirectory : d.entryAt? p ≠ some .directory)
    (content : List UInt8) : (d.put p content).fileAt? p = some content := by
  have kept : (p.isEmpty || d.directories.contains p) = false := by
    rwa [Ne, entryAt?_eq_directory_iff, Bool.not_eq_true] at noDirectory
  have stays : (p.isEmpty || (d.put p content).directories.contains p) = false := kept
  have first : (d.put p content).files.lookup p = some content := by
    rw [put, List.lookup_cons, beq_self_eq_true]
  rw [fileAt?_eq_some_iff, entryAt?, if_neg (by rw [stays]; simp), first]
  rfl

theorem fileAt?_put_of_ne {p q : Place} (ne : q ≠ p) (content : List UInt8) :
    (d.put p content).fileAt? q = d.fileAt? q := by
  have other : (q == p) = false := by simpa using ne
  have entry : (d.put p content).entryAt? q = d.entryAt? q := by
    simp only [entryAt?, put, List.lookup_cons, other, lookup_filter_ne ne]
  rw [fileAt?, fileAt?, entry]

/-! ## Writing -/

variable {path other : String} {content : List UInt8}

theorem sameTree_write (written : d.write path content = .ok d') : SameTree d d' := by
  obtain ⟨p, -, -, -, rfl⟩ := write_eq_ok_iff.1 written
  exact sameTree_put d p content

/-- What was written is read. -/
theorem content?_write (written : d.write path content = .ok d') :
    d'.content? path = some content := by
  obtain ⟨p, leads, noDirectory, whole, rfl⟩ := write_eq_ok_iff.1 written
  exact content?_eq_some_iff.2 ⟨p, (place?_congr (sameTree_put d p content) path).trans leads,
    whole, fileAt?_put noDirectory content⟩

/-- Nothing else is read from a path that leads to another place. -/
theorem content?_write_of_ne (written : d.write path content = .ok d')
    (apart : d.place? other ≠ d.place? path) : d'.content? other = d.content? other := by
  obtain ⟨p, leads, -, -, rfl⟩ := write_eq_ok_iff.1 written
  refine Option.ext fun found => ?_
  simp only [content?_eq_some_iff, place?_congr (sameTree_put d p content)]
  have same (q : Place) (here : d.place? other = some q) :
    (d.put p content).fileAt? q = d.fileAt? q :=
    fileAt?_put_of_ne (fun eq => apart (here.trans ((congrArg some eq).trans leads.symm))) content
  constructor
  · rintro ⟨q, here, whole, read⟩
    exact ⟨q, here, whole, same q here ▸ read⟩
  · rintro ⟨q, here, whole, read⟩
    exact ⟨q, here, whole, (same q here).trans read⟩

end BilingualC.Disk
