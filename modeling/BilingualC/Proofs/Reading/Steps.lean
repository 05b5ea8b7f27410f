import Mathlib
import BilingualC.Proofs.Grammar.Claims
import BilingualC.Proofs.Reading.Operands

/-!
# Steps of the reader

`Grammar.Reads` says how a step of the reader may end. `Rule.Leads` is what is said of most rules:
one that may start takes some items from the stack, leaves others there and goes on. The body of a
rule starts at a place of its own, and each step in it goes on from what the step before it has
left.
-/

namespace BilingualC

open Guarded

variable {α β : Type} {ok : Fault → Prop}

namespace Grammar

/-- A step of the reader ends with a result of which something is known, or with an allowed
fault. -/
def Reads (ok : Fault → Prop) (m : Parse α) (r : Reader) (c : Checker)
    (Q : α → Reader → Checker → Prop) : Prop :=
  Guarded.Ends ok (m r c) fun out => Q out.1.1 out.1.2 out.2

section Reads

variable {m : Parse α} {f : α → Parse β} {P Q : α → Reader → Checker → Prop}
    {R : β → Reader → Checker → Prop} {r : Reader} {c : Checker} {a : α}

theorem Reads.mono (reads : Reads ok m r c P) (weaker : ∀ a r' c', P a r' c' → Q a r' c') :
    Reads ok m r c Q :=
  Guarded.Ends.mono reads fun out => weaker out.1.1 out.1.2 out.2

theorem Reads.bind (first : Reads ok m r c P)
    (next : ∀ a r' c', P a r' c' → Reads ok (f a) r' c' R) : Reads ok (m >>= f) r c R := by
  rw [Reads, run_bind_eq]
  exact Guarded.Ends.bind first fun out known => next out.1.1 out.1.2 out.2 known

theorem reads_pure (known : Q a r c) : Reads ok (pure a) r c Q := known

/-- A step that only gives a value. -/
theorem Reads.pure_bind (next : Reads ok (f a) r c R) : Reads ok (pure a >>= f) r c R := next

theorem reads_modify {change : Reader → Reader} {Q : Unit → Reader → Checker → Prop}
    (known : Q () (change r) c) : Reads ok (modify change) r c Q :=
  known

theorem reads_throw {e : Fault} (allowed : ok e) : Reads ok (throw e : Parse α) r c Q := allowed

theorem Reads.ite {p : Prop} [Decidable p] {n : Parse α} (yes : p → Reads ok m r c Q)
    (no : ¬p → Reads ok n r c Q) : Reads ok (if p then m else n) r c Q := by
  by_cases holds : p
  · rw [if_pos holds]
    exact yes holds
  · rw [if_neg holds]
    exact no holds

/-- A part that is read only where it is written. -/
theorem Reads.optional {written : Bool} {n : Parse β}
    (present : written = true → (∀ a r' c', P a r' c' → Reads ok (f a) r' c' R) → Reads ok n r c R)
    (absent : written = false → P a r c) (next : ∀ a r' c', P a r' c' → Reads ok (f a) r' c' R) :
    Reads ok (if written = true then n else pure a >>= f) r c R :=
  .ite (fun on => present on next) fun off => .pure_bind (next a r c (absent (by simpa using off)))

/-- A step of the checker. -/
theorem reads_lift {m : Check α} (ends : Checker.Ends ok m c fun a c' => Q a r c') :
    Reads ok (liftM m) r c Q := by
  have run : (liftM m : Parse α) r c = m c >>= fun p => pure ((p.1, r), p.2) := rfl
  rw [Reads, run]
  exact Guarded.Ends.bind ends fun out known => ends_pure known

/-- A step of the checker and what comes after it. -/
theorem reads_check {m : Check α} {P : α → Checker → Prop} (ends : Checker.Ends ok m c P)
    (next : ∀ a c', P a c' → Reads ok (f a) r c' R) : Reads ok (liftM m >>= f) r c R :=
  Reads.bind (P := fun a r' c' => r' = r ∧ P a c') (reads_lift (ends.mono fun _ _ known =>
    ⟨rfl, known⟩)) fun a _ c' known => known.1 ▸ next a c' known.2

theorem reads_get {f : Reader → Parse β} (next : Reads ok (f r) r c R) :
    Reads ok (get >>= f) r c R :=
  next

theorem reads_current {f : Token → Parse β} (next : Reads ok (f r.current) r c R) :
    Reads ok (current >>= f) r c R :=
  next

theorem reads_position {f : Nat → Parse β} (next : Reads ok (f r.pos) r c R) :
    Reads ok (position >>= f) r c R :=
  next

theorem reads_is {f : Bool → Parse β} {kind : TokenKind}
    (next : Reads ok (f (r.current.kind == kind)) r c R) : Reads ok (check kind >>= f) r c R :=
  next

theorem reads_spanFrom {f : Location → Parse β} {start : Location}
    (next : Reads ok (f (Location.span start r.previous.loc)) r c R) :
    Reads ok (spanFrom start >>= f) r c R :=
  next

theorem reads_peek {f : Token → Parse β}
    (next : Reads ok (f (r.tokens.getD (r.pos + 1) (r.tokens.back?.getD r.current))) r c R) :
    Reads ok (peek >>= f) r c R :=
  next

/-- The tables are changed. -/
theorem reads_session (make : Session → Session × α)
    (next : Reads ok (f (make c.session).2) r (c.withSession (make c.session).1) R) : Reads ok (do
      let (s, a) := make (← Checker.currentSession)
      Checker.setSession s
      f a) r c R := next

/-- A rule that is not watched for is applied. -/
theorem reads_within {rule : Rule} (passes : ok .stopped ∨
      r.watch ⟨rule, r.pos, r.current, r.previous, r.trail, c.session⟩ = false)
    (inner : Reads ok m { r with trail := (rule, r.pos) :: r.trail } c fun a r' c' =>
      Q a { r' with trail := r.trail } c') : Reads ok (within rule m) r c Q := by
  have run : within rule m r c =
    if r.watch ⟨rule, r.pos, r.current, r.previous, r.trail, c.session⟩ = true then .error .stopped
      else m { r with trail := (rule, r.pos) :: r.trail } c >>= fun out =>
        .ok ((out.1.1, { out.1.2 with trail := r.trail }), out.2) := by
    unfold within
    rw [run_bind_eq]
    show (if r.watch _ = true then throw .stopped else _ : Parse α) r c = _
    split <;> rfl
  rw [Reads, run]
  split
  next stops => exact passes.resolve_right fun off => by rw [off] at stops; cases stops
  next => exact Guarded.Ends.bind inner fun out known => ends_ok known rfl

/-- A rule that is watched for stops the reader. -/
theorem reads_watched {rule : Rule}
    (stops : r.watch ⟨rule, r.pos, r.current, r.previous, r.trail, c.session⟩ = true)
    (allowed : ok .stopped) : Reads ok (within rule m) r c Q := by
  have run : within rule m r c = .error .stopped := by
    unfold within
    rw [run_bind_eq]
    show (if r.watch _ = true then throw .stopped else _ : Parse α) r c = _
    rw [if_pos stops]
    rfl
  rw [Reads, run]
  exact allowed

/-- A token that is there is passed. -/
theorem reads_want_found {g : Unit → Parse β} {kind : TokenKind}
    {what : String} (same : r.current.kind = kind)
    (next : Reads ok (g ()) r.advanced c R) : Reads ok (want kind what >>= g) r c R := by
  have run : want kind what r c = .ok (((), r.advanced), c) := by
    unfold want expect
    rw [run_bind_eq, run_bind_eq, run_accept, beq_iff_eq.mpr same]
    rfl
  rw [Reads, run_bind_eq, run]
  exact next

end Reads

/-! ## Rules -/

/-- A rule that may start takes items from the stack, leaves others there and goes on. -/
def Rule.Leads (ok : Fault → Prop) (rule : Rule) (depth : Nat) (m : Parse α) (ins : List Pending)
    (outs : α → List Pending) : Prop :=
  ∀ ⦃σ low items r c⦄, At ok σ low (ins ++ items) r c → MayStart ok σ rule low depth →
    Reads ok m r c fun a r' c' => At ok σ low (outs a ++ items) r' c'

variable {σ : Course} {rule : Rule} {low depth : Nat} {items ins : List Pending}
    {outs : α → List Pending} {r : Reader} {c : Checker}

/-- A rule that may start is not watched for. -/
theorem MayStart.passes (ready : MayStart ok σ rule low depth) (held : At ok σ low items r c) :
    ok .stopped ∨ r.watch ⟨rule, r.pos, r.current, r.previous, r.trail, c.session⟩ = false := by
  rw [held.reader.watch]
  refine held.course.stopped.imp_right fun lets => lets _ (.inl fun e mem => ?_)
  rw [held.reader.trail] at mem
  exact (ready.raise held.reader.low).fresh e mem

/-- The body of a rule that is not watched for begins at a place of its own. -/
theorem reads_placed {m : Parse α} (post : Nat → Course → α → Reader → Checker → Prop)
    (held : At ok σ low items r c) (passes : ok .stopped ∨
      r.watch ⟨rule, r.pos, r.current, r.previous, r.trail, c.session⟩ = false)
    (inner : ∀ r', r'.pos = r.pos → r'.current = r.current → r'.previous = r.previous → At ok
      (σ.enter rule r'.pos) r'.pos items r' c → Reads ok m r' c (post r'.pos (σ.enter rule r'.pos)))
    (leave : ∀ a r' c', post r.pos (σ.enter rule r.pos) a r' c' →
      post low σ a { r' with trail := σ.trail } c') :
    Reads ok (within rule m) r c (post low σ) := by
  refine reads_within passes ?_
  rw [held.reader.trail]
  have inside := held.here.enter rule r.pos
  exact (inner { r with trail := (rule, r.pos) :: σ.trail } rfl rfl rfl inside).mono leave

/-- The body of a rule that may start begins where the rule is allowed. -/
theorem reads_body {m : Parse α} (post : Nat → Course → α → Reader → Checker → Prop)
    (held : At ok σ low items r c) (ready : MayStart ok σ rule low depth)
    (inner : ∀ r', r'.pos = r.pos → r'.current = r.current →
      At ok (σ.enter rule r'.pos) r'.pos items r' c → Allowed ok σ rule r'.pos depth →
      Reads ok m r' c (post r'.pos (σ.enter rule r'.pos)))
    (leave : ∀ a r' c', post r.pos (σ.enter rule r.pos) a r' c' →
      post low σ a { r' with trail := σ.trail } c') :
    Reads ok (within rule m) r c (post low σ) := by
  apply reads_placed post held (ready.passes held)
  case inner =>
    intro r' pos current _ inside
    refine inner r' pos current inside ?_
    rw [pos]
    exact (ready.raise held.reader.low).toAllowed
  case leave => exact leave

theorem leads_within {m : Parse α} (inner : ∀ ⦃σ items r c⦄,
      At ok (σ.enter rule r.pos) r.pos (ins ++ items) r c → Allowed ok σ rule r.pos depth →
      Reads ok m r c fun a r' c' => At ok (σ.enter rule r.pos) r.pos (outs a ++ items) r' c') :
    rule.Leads ok depth (within rule m) ins outs := by
  intro σ low items r c held ready
  apply reads_body (fun low σ a r' c' => At ok σ low (outs a ++ items) r' c') held ready
  case inner => exact fun r' _ _ inside allowed => inner inside allowed
  case leave => exact fun a r' c' inside => (inside.leave held.course).lower held.reader.low

/-- A rule without depth cannot be applied where there is a token. -/
theorem leads_endless {m : Parse α} (none : m = throw .endless) : rule.Leads ok 0 m ins outs := by
  intro σ low items r c held ready
  subst none
  exact reads_throw (ready.endless held.inside)

end Grammar

open Grammar

namespace At

variable {σ : Course} {low depth : Nat} {items : List Pending}
    {r : Reader} {c : Checker} {f : Bool → Parse β} {g : Unit → Parse β}
    {R : β → Reader → Checker → Prop} {kind : TokenKind} {what : String} {tok : Token}

/-! ## Tokens -/

theorem reads_advance (held : At ok σ low items r c) (more : r.current.kind ≠ .endOfInput)
    (next : ∀ r', r'.pos = r.pos + 1 → r'.previous = r.current →
      At ok σ (low + 1) (.token r.current.loc :: items) r' c → Reads ok (g ()) r' c R) :
    Reads ok (Grammar.advance >>= g) r c R := by
  obtain ⟨-, pos, previous⟩ := held.reader.advanced held.course more
  exact next r.advanced pos previous ((held.advance more).lower (Nat.succ_le_succ held.reader.low))

theorem reads_accept (held : At ok σ low items r c) (more : kind ≠ .endOfInput)
    (yes : ∀ r', r.current.kind = kind → r'.pos = r.pos + 1 → r'.previous = r.current →
      At ok σ (low + 1) (.token r.current.loc :: items) r' c → Reads ok (f true) r' c R)
    (no : r.current.kind ≠ kind → Reads ok (f false) r c R) :
    Reads ok (Grammar.accept kind >>= f) r c R := by
  rw [Reads, run_bind_eq, run_accept]
  by_cases same : r.current.kind = kind
  · rw [beq_iff_eq.mpr same]
    exact held.reads_advance (g := fun _ => f true) (same ▸ more) fun r' => yes r' same
  · rw [beq_eq_false_iff_ne.mpr same]
    exact no same

theorem reads_reportMissing (held : At ok σ low items r c)
    (next : ∀ j, At ok σ low items { r with recovering := true } (c.withJournal j) →
      (c.withJournal j).errors ≠ 0 →
      Reads ok (g ()) { r with recovering := true } (c.withJournal j) R) :
    Reads ok (Grammar.reportMissing what >>= g) r c R := by
  refine Reads.bind (P := fun _ r' c' => ∃ j, r' = { r with recovering := true } ∧
    c' = c.withJournal j ∧
    At ok σ low items r' c' ∧ c'.errors ≠ 0) ?_ fun _ r' c' ⟨j, reader, state, after, error⟩ => ?_
  · refine reads_get (.ite (fun on => reads_pure ?_) fun off => ?_)
    · have same : { r with recovering := true } = r := by rw [← on]
      exact ⟨c.session.journal, same.symm, rfl, held, held.recovers on⟩
    · refine reads_check (held.report held.near _) fun _ c' ⟨⟨j, same⟩, after, error⟩ => ?_
      exact ⟨j, rfl, same, after.recover true fun _ => error, error⟩
  · subst reader state
    exact next j after error

theorem reads_expect (held : At ok σ low items r c) (more : kind ≠ .endOfInput)
    (yes : ∀ r', r.current.kind = kind → r'.previous = r.current →
      At ok σ (low + 1) (.token r.current.loc :: items) r' c → Reads ok (f true) r' c R)
    (no : ∀ r' c', At ok σ low items r' c' → c'.errors ≠ 0 → Reads ok (f false) r' c' R) :
    Reads ok (Grammar.expect kind what >>= f) r c R := by
  have run : (Grammar.expect kind what >>= f) = Grammar.accept kind >>= fun found =>
      if found = true then f true else Grammar.reportMissing what >>= fun _ => f false := by
    unfold Grammar.expect
    simp only [bind_assoc]
    refine congrArg _ (funext fun found => ?_)
    cases found <;> simp
  rw [run]
  exact held.reads_accept more (fun r' same _ previous after => yes r' same previous after) fun _ =>
    held.reads_reportMissing fun j after error => no _ _ after error

theorem reads_want (held : At ok σ low items r c) (more : kind ≠ .endOfInput)
    (next : ∀ r' c', At ok σ low (.token r.current.loc :: items) r' c' → (r.current.kind = kind →
      At ok σ (low + 1) (.token r.current.loc :: items) r' c') → Reads ok (g ()) r' c' R) :
    Reads ok (Grammar.want kind what >>= g) r c R := by
  have run : (Grammar.want kind what >>= g) = Grammar.accept kind >>= fun found =>
      if found = true then g () else Grammar.reportMissing what >>= fun _ => g () := by
    unfold Grammar.want Grammar.expect
    simp only [bind_assoc]
    refine congrArg _ (funext fun found => ?_)
    cases found <;> simp
  rw [run]
  refine held.reads_accept more (fun r' _ _ _ after =>
    next r' c (after.lower (Nat.le_succ low)) fun _ => after) fun other => ?_
  exact held.reads_reportMissing fun j after error => next _ _ (after.missing error _) fun same =>
    absurd same other

/-! ## Recovery -/

/-- Tokens are skipped, at least one unless a block or the input ends here. -/
theorem reads_skipStatement (left : Nat) (held : At ok σ low items r c)
    (ready : MayStart ok σ .skipStatement low depth) :
    Reads ok (Grammar.skipStatement left) r c fun _ r' c' => c' = c ∧ At ok σ low items r' c ∧
    (left ≠ 0 → r.current.kind ≠ .endOfInput → r.current.kind ≠ .rightBrace →
      At ok σ (low + 1) items r' c) := by
  induction left generalizing σ low r with
  | zero => exact reads_pure ⟨rfl, held, fun some => absurd rfl some⟩
  | succ left ih =>
    refine reads_body (fun low σ _ r' c' => c' = c ∧ At ok σ low items r' c ∧
      (left + 1 ≠ 0 → r.current.kind ≠ .endOfInput → r.current.kind ≠ .rightBrace →
      At ok σ (low + 1) items r' c)) held ready ?inner ?leave
    case leave =>
      rintro _ r' c' ⟨rfl, after, passed⟩
      refine ⟨rfl, (after.leave held.course).lower held.reader.low, fun _ open_ more => ?_⟩
      exact ((passed (Nat.succ_ne_zero left) open_ more).leave held.course).lower
        (Nat.succ_le_succ held.reader.low)
    intro r₁ pos current inside allowed
    rw [← current]
    refine reads_is (reads_is
      (.ite (fun stop => reads_pure ⟨rfl, inside, fun _ more open_ => ?_⟩) fun stop => ?_))
    · simp [more, open_] at stop
    refine inside.reads_accept (by decide) (fun r₂ _ _ _ after =>
      reads_pure ⟨rfl, ?_, fun _ _ _ => after.pop rfl⟩) fun _ => ?_
    · exact (after.pop rfl).lower (Nat.le_succ _)
    have more : r₁.current.kind ≠ .endOfInput := by
      intro ends
      simp [ends] at stop
    refine inside.reads_advance more fun r₂ _ _ after => ?_
    refine (ih (after.pop rfl) (allowed.on (Nat.le_succ _) inside.inside .skipStatement)).mono ?_
    rintro _ r' c' ⟨rfl, last, -⟩
    exact ⟨rfl, last.lower (Nat.le_succ _), fun _ _ _ => last⟩

/-- The end of a recovery. A reader that has to skip tokens passes one, unless a block or the input
ends here. -/
theorem reads_synchronize (held : At ok σ low items r c)
    (ready : MayStart ok σ .skipStatement low depth) (next : ∀ r', At ok σ low items r' c →
      (r.recovering = true → r.current.kind ≠ .endOfInput → r.current.kind ≠ .rightBrace →
      (r.previous.kind = .semicolon ∧ r' = { r with recovering := false }) ∨
      At ok σ (low + 1) items r' c) → Reads ok (g ()) r' c R) :
    Reads ok (Grammar.synchronize >>= g) r c R := by
  refine Reads.bind (P := fun _ r' c' => c' = c ∧ At ok σ low items r' c ∧
    (r.recovering = true → r.current.kind ≠ .endOfInput → r.current.kind ≠ .rightBrace →
    (r.previous.kind = .semicolon ∧ r' = { r with recovering := false }) ∨
    At ok σ (low + 1) items r' c)) ?_ fun _ r' c' ⟨same, after, passed⟩ => same
    ▸ next r' after passed
  refine reads_get
    (.ite (fun off => reads_pure ⟨rfl, held, fun on => by simp [on] at off⟩) fun on => ?_)
  refine .ite (fun other => ?_) fun semicolon => ?_
  · refine Reads.bind (held.reads_skipStatement r.tokens.size ready)
      fun _ r' c' ⟨same, after, passed⟩ => ?_
    subst same
    have some : r.tokens.size ≠ 0 := by
      have inside := held.reader.inside
      rw [held.reader.tokens]
      omega
    exact reads_modify ⟨rfl, after.recover false nofun,
      fun _ more open_ => .inr ((passed some more open_).recover false nofun)⟩
  · exact reads_modify ⟨rfl, held.recover false nofun,
      fun _ _ _ => .inl ⟨by simpa using semicolon, rfl⟩⟩

/-- A reader that has not gone on from a place goes on now. -/
theorem reads_ensureProgress (held : At ok σ low items r c)
    (there : σ.tokens[low]? = some tok) (more : tok.kind ≠ .endOfInput)
    (next : ∀ r', At ok σ (low + 1) items r' c → Reads ok (g ()) r' c R) :
    Reads ok (Grammar.ensureProgress low >>= g) r c R := by
  refine Reads.bind (P := fun _ r' c' => c' = c ∧
    At ok σ (low + 1) items r' c) ?_ fun _ r' c' ⟨same, after⟩ => same ▸ next r' after
  refine reads_position (.ite (fun stays => ?_) fun moved => reads_pure ⟨rfl, held.here.lower ?_⟩)
  · have same : r.current = tok := by
      have current := held.reader.current
      rw [beq_iff_eq.mp stays, there] at current
      exact (Option.some.inj current).symm
    have passed := held.reads_advance (g := fun _ => pure ()) (R := fun _ r' c' => c' = c ∧
      At ok σ (low + 1) items r' c) (same ▸ more) fun r' _ _ after =>
      reads_pure ⟨rfl, after.pop rfl⟩
    exact passed
  · have ahead := held.reader.low
    have other : r.pos ≠ low := by simpa using moved
    omega

end At

end BilingualC
