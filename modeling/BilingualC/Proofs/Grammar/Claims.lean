import Mathlib
import BilingualC.Grammar.Statement
import BilingualC.Proofs.Checker.Facts

/-!
# Claims about grammar rules

A grammar rule checks what it reads, so that what is known of it is what the rules of the checker
say. `Grammar.Does` is a triple for steps of the reader: a claim before the step, and a claim for
each of its results. A claim says nothing once an error was reported, and a reader that recovers
from a syntax error has reported one. Triples are put together in the order of the steps
(`Does.bind`); slots and facts that a step does not touch are framed (`Does.below`, `Does.frame`).
-/

namespace BilingualC

namespace Grammar

open Checker Session Std.Do

/-- What is known between two steps, over trees that wait below. It is of no interest after an
error. -/
structure Claim where
  holds : World → List Slot → Checker → Prop
  absorbs : ∀ {w : World} {base : List Slot} {c : Checker}, c.Dirty → holds w base c

namespace Claim

/-- A fact is known, and trees wait for the slots, which may depend on the nesting. -/
def nested (P : Session → Prop) (slots : World → List Slot) : Claim where
  holds w base c := c.StateOf P w (slots w ++ base)
  absorbs := .inl

/-- A fact is known, and trees wait for some slots. -/
abbrev known (P : Session → Prop) (slots : List Slot) : Claim := nested P fun _ => slots

/-- Trees wait for some slots. -/
abbrev slots (slots : List Slot) : Claim := known (fun _ => True) slots

/-- A fact is known, and nothing waits. -/
abbrev fact (P : Session → Prop) : Claim := known P []

/-- One of some claims is known. -/
def some {ι : Type} [Inhabited ι] (each : ι → Claim) : Claim where
  holds w base c := ∃ i, (each i).holds w base c
  absorbs dirty := ⟨default, (each default).absorbs dirty⟩

end Claim

/-- A step of the reader leads from a claim to a claim for its result. -/
def Does {α : Type} (pre : Claim) (m : Parse α) (post : α → Claim) : Prop :=
  ∀ r c a r' c', m r c = .ok ((a, r'), c') → (r.recovering = true → c.Dirty) →
    (r'.recovering = true → c'.Dirty) ∧ (c.Dirty → c'.Dirty) ∧
      ∀ w base, pre.holds w base c → (post a).holds w base c'

/-! ## Runs -/

section Runs

variable {α β : Type}

theorem run_bind_eq (m : Parse α) (f : α → Parse β) (r : Reader) (c : Checker) :
    (m >>= f) r c = (m r c >>= fun p => f p.1.1 p.1.2 p.2) := rfl

theorem run_bind {m : Parse α} {f : α → Parse β} {r : Reader}
    {c : Checker} {out : (β × Reader) × Checker} :
    (m >>= f) r c = .ok out ↔ ∃ a r₁ c₁, m r c = .ok ((a, r₁), c₁) ∧ f a r₁ c₁ = .ok out := by
  rw [run_bind_eq, Guarded.bind_eq_ok]
  exact ⟨fun ⟨⟨⟨a, r₁⟩, c₁⟩, first, second⟩ => ⟨a, r₁, c₁, first, second⟩,
    fun ⟨a, r₁, c₁, first, second⟩ => ⟨((a, r₁), c₁), first, second⟩⟩

theorem run_lift {m : Check α} {r r' : Reader} {c c' : Checker} {a : α} :
    (liftM m : Parse α) r c = .ok ((a, r'), c') ↔ r' = r ∧ m c = .ok (a, c') := by
  show (m c >>= fun p => pure ((p.1, r), p.2)) = .ok ((a, r'), c') ↔ _
  rw [Guarded.bind_eq_ok]
  constructor
  · rintro ⟨⟨b, c₁⟩, run, same⟩
    cases same
    exact ⟨rfl, run⟩
  · rintro ⟨rfl, run⟩
    exact ⟨(a, c'), run, rfl⟩

end Runs

/-! ## Putting triples together -/

namespace Does

variable {α β : Type} {pre pre' mid : Claim} {post post' : α → Claim} {m : Parse α}

theorem bind {f : α → Parse β} {post : β → Claim} {mid : α → Claim} (first : Does pre m mid)
    (second : ∀ a, Does (mid a) (f a) post) : Does pre (m >>= f) post := by
  intro r c b r' c' run recovers
  obtain ⟨a, r₁, c₁, run₁, run₂⟩ := run_bind.1 run
  obtain ⟨recovers₁, dirty₁, holds₁⟩ := first r c a r₁ c₁ run₁ recovers
  obtain ⟨recovers₂, dirty₂, holds₂⟩ := second a r₁ c₁ b r' c' run₂ recovers₁
  exact ⟨recovers₂, fun dirty => dirty₂ (dirty₁ dirty),
    fun w base known => holds₂ w base (holds₁ w base known)⟩

theorem pure {a : α} (same : pre = post a) : Does pre (Pure.pure a) post := by
  intro r c b r' c' run recovers
  cases run
  subst same
  exact ⟨recovers, id, fun _ _ known => known⟩

/-- A result that is known is passed on. -/
theorem pass {a : α} {f : α → Parse β} {post : β → Claim} (does : Does pre (f a) post) :
    Does pre (Pure.pure a >>= f) post :=
  does

theorem throw (e : Fault) : Does pre (MonadExcept.throw e : Parse α) post := by
  intro r c a r' c' run
  cases run

theorem ite {p : Prop} [Decidable p] {n : Parse α} (yes : p → Does pre m post)
    (no : ¬p → Does pre n post) : Does pre (if p then m else n) post := by
  by_cases holds : p
  · rw [if_pos holds]
    exact yes holds
  · rw [if_neg holds]
    exact no holds

/-- What is known before and after a step may be said in other words. -/
theorem imp (does : Does pre m post) (before : ∀ w base c, pre'.holds w base c → pre.holds w base c)
    (after : ∀ a w base c, (post a).holds w base c → (post' a).holds w base c) :
    Does pre' m post' := by
  intro r c a r' c' run recovers
  obtain ⟨recovers', dirty, holds⟩ := does r c a r' c' run recovers
  exact ⟨recovers', dirty, fun w base known =>
    after a w base c' (holds w base (before w base c known))⟩

/-- More may be known before a step. -/
theorem given {P N : Session → Prop} {ins : World → List Slot} (does : Does (.nested P ins) m post)
    (more : ∀ s, s.Tables → N s → P s) : Does (.nested N ins) m post := by
  refine does.imp (fun w base c known => known.imp_right ?_) fun _ _ _ _ known => known
  rintro ⟨trees, stands, fits, fact⟩
  exact ⟨trees, stands, fits, more _ stands.tables fact⟩

/-- A step that needs no fact may come after one. -/
theorem forget {P : Session → Prop} {ins : World → List Slot}
    (does : Does (.nested (fun _ => True) ins) m post) : Does (.nested P ins) m post :=
  does.given fun _ _ _ => True.intro

/-- After an error any claim is as good as another one. -/
theorem of_dirty (does : Does pre m post) (error : ∀ r c a r' c', m r c = .ok ((a, r'), c') →
    (r.recovering = true → c.Dirty) → c'.Dirty) : Does pre' m post' := by
  intro r c a r' c' run recovers
  obtain ⟨recovers', dirty, -⟩ := does r c a r' c' run recovers
  exact ⟨recovers', dirty, fun _ _ _ => (post' a).absorbs (error r c a r' c' run recovers)⟩

/-- Steps that change neither the checker nor the recovery. -/
theorem quiet (same : ∀ r c a r' c', m r c = .ok ((a, r'), c') → c' = c ∧
      (r'.recovering = true → r.recovering = true)) : Does pre m fun _ => pre := by
  intro r c a r' c' run recovers
  obtain ⟨rfl, still⟩ := same r c a r' c' run
  exact ⟨fun on => recovers (still on), id, fun _ _ known => known⟩

/-- A step of the checker. -/
theorem lift {m : Check α} (dirty : ∀ {c₀ a c}, m c₀ = .ok (a, c) → c₀.Dirty → c.Dirty)
    (step : ∀ {c₀ a c}, m c₀ = .ok (a, c) → ∀ w base, pre.holds w base c₀ → (post a).holds w base c)
    : Does pre (liftM m) post := by
  intro r c a r' c' run recovers
  obtain ⟨rfl, done⟩ := run_lift.1 run
  exact ⟨fun on => dirty done (recovers on), dirty done, step done⟩

/-- A step of the checker that needs a fact and gives one. -/
theorem leads {m : Check α} {P : Session → Prop}
    {Q : α → Session → Prop} {ins : List Slot} {outs : α → List Slot}
    (step : ∀ {c₀ a c}, m c₀ = .ok (a, c) → c₀.Leads P ins (Q a) (outs a) c) :
    Does (.known P ins) (liftM m) fun a => .known (Q a) (outs a) :=
  lift (fun run => (step run).dirty) fun run => step run

theorem effect {m : Check α} {ins : List Slot} {outs : α → List Slot}
    (step : ∀ {c₀ a c}, m c₀ = .ok (a, c) → c₀.Effect ins (outs a) c) :
    Does (.slots ins) (liftM m) fun a => .slots (outs a) :=
  leads fun run => (step run).leads (stable_const True)

/-- A step of the checker whose result depends on the nesting. -/
theorem effectIn {m : Check α} {ins : World → List Slot} {outs : α → World → List Slot}
    (step : ∀ {c₀ a c}, m c₀ = .ok (a, c) → ∀ w, c₀.EffectIn w (ins w) (outs a w) c) :
    Does (.nested (fun _ => True) ins) (liftM m) fun a => .nested (fun _ => True) (outs a) := by
  refine lift (fun run => dirty_of_effects (step run)) fun run w base known => ?_
  obtain dirty | ⟨trees, stands, fits, -⟩ := known
  · exact .inl (dirty_of_effects (step run) dirty)
  · exact (step run w base (.inr ⟨trees, stands, fits⟩)).imp_right fun done =>
      done.imp fun _ after => ⟨after.1, after.2, True.intro⟩

/-! ## Frames -/

section Frames

variable {P R : Session → Prop} {Q : α → Session → Prop}

/-- Slots below those that a step takes stay where they are. -/
theorem below {ins : World → List Slot} {outs : α → World → List Slot}
    (does : Does (.nested P ins) m fun a => .nested (Q a) (outs a)) (more : World → List Slot) :
    Does (.nested P fun w => ins w ++ more w) m fun a => .nested (Q a) fun w =>
    outs a w ++ more w := by
  intro r c a r' c' run recovers
  obtain ⟨recovers', dirty, holds⟩ := does r c a r' c' run recovers
  refine ⟨recovers', dirty, fun w base known => ?_⟩
  have framed :=
    holds w (more w ++ base) (by simpa only [Claim.nested, List.append_assoc] using known)
  simpa only [Claim.nested, List.append_assoc] using framed

/-- Slots and a stable fact are kept, also if one of several claims is known afterwards. -/
theorem keepSome {ι : Type} [Inhabited ι] {Q : α → ι → Session → Prop}
    {ins : List Slot} {outs : α → ι → List Slot}
    (does : Does (.known P ins) m fun a => .some fun i => .known (Q a i) (outs a i))
    (stable : Stable R)
    (more : List Slot) : Does (.known (fun s => P s ∧ R s) (ins ++ more)) m fun a =>
      .some fun i => .known (fun s => Q a i s ∧ R s) (outs a i ++ more) := by
  intro r c a r' c' run recovers
  obtain ⟨recovers', dirty, holds⟩ := does r c a r' c' run recovers
  refine ⟨recovers', dirty, fun w base known => ?_⟩
  obtain error | ⟨trees, stands, fits, fact, kept⟩ := known
  · exact ⟨default, .inl (dirty error)⟩
  · rw [List.append_assoc] at fits
    -- Seen from the state before the step, the tables afterwards have grown from those in which the
    -- fact was known.
    obtain ⟨i, error | ⟨trees', after, fits', fact'⟩⟩ := holds ⟨c, w.parts⟩ (more ++ base)
      (.inr ⟨trees, stands.rebase stands.loops stands.switches, fits, fact⟩)
    · exact ⟨i, .inl error⟩
    · exact ⟨i, .inr ⟨trees', { after with keeps := stands.keeps.trans after.keeps },
        by rwa [List.append_assoc], fact', stable _ _ stands.tables after.keeps.grows kept⟩⟩

/-- Slots and a stable fact are kept. -/
theorem keep {ins : List Slot} {outs : α → List Slot}
    (does : Does (.known P ins) m fun a => .known (Q a) (outs a)) (stable : Stable R)
    (more : List Slot) : Does (.known (fun s => P s ∧ R s) (ins ++ more)) m fun a =>
    .known (fun s => Q a s ∧ R s) (outs a ++ more) := by
  have one : Does (.known P ins) m fun a => .some fun _ : Unit => .known (Q a) (outs a) :=
    does.imp (fun _ _ _ known => known) fun _ _ _ _ known => ⟨(), known⟩
  exact (one.keepSome stable more).imp (fun _ _ _ known => known) fun _ _ _ _ known =>
    known.elim fun _ fact => fact

/-- A fact that is stable is known afterwards. -/
theorem frame {ins : List Slot} {outs : α → List Slot}
    (does : Does (.known P ins) m fun a => .known (Q a) (outs a)) (stable : Stable R) :
    Does (.known (fun s => P s ∧ R s) ins) m fun a => .known (fun s => Q a s ∧ R s) (outs a) := by
  simpa only [List.append_nil] using does.keep stable []

/-- A stable fact is kept by a step that needs none. -/
theorem besides {ins : List Slot} {outs : α → List Slot}
    (does : Does (.slots ins) m fun a => .known (Q a) (outs a))
    (stable : Stable R) : Does (.known R ins) m fun a => .known (fun s => Q a s ∧ R s) (outs a) :=
  (does.frame stable).given fun _ _ fact => ⟨True.intro, fact⟩

/-- Less may be said after a step. -/
theorem gives {Q' : α → Session → Prop} {outs : α → World → List Slot}
    (does : Does pre m fun a => .nested (Q a) (outs a)) (less : ∀ a s, s.Tables → Q a s → Q' a s) :
    Does pre m fun a => .nested (Q' a) (outs a) := by
  refine does.imp (fun _ _ _ known => known) fun a w base c known => known.imp_right ?_
  rintro ⟨trees, stands, fits, fact⟩
  exact ⟨trees, stands, fits, less a _ stands.tables fact⟩

/-- Slots and a stable fact are kept by a step that needs no fact and gives none. -/
theorem carry {ins : List Slot} {outs : α → List Slot}
    (does : Does (.slots ins) m fun a => .slots (outs a)) (stable : Stable R) (more : List Slot) :
    Does (.known R (ins ++ more)) m fun a => .known R (outs a ++ more) :=
  ((does.keep stable more).given fun _ _ fact => ⟨True.intro, fact⟩).gives fun _ _ _ fact => fact.2

/-- A fact that does not depend on the tables is kept. -/
theorem under {p : Prop} {ins : World → List Slot} {outs : α → World → List Slot}
    (does : Does (.nested (fun _ => True) ins) m fun a => .nested (fun _ => True) (outs a)) :
    Does (.nested (fun _ => p) ins) m fun a => .nested (fun _ => p) (outs a) := by
  intro r c a r' c' run recovers
  obtain ⟨recovers', dirty, holds⟩ := does r c a r' c' run recovers
  refine ⟨recovers', dirty, fun w base known => ?_⟩
  obtain error | ⟨trees, stands, fits, fact⟩ := known
  · exact .inl (dirty error)
  · exact (holds w base (.inr ⟨trees, stands, fits, True.intro⟩)).imp_right fun known =>
      known.imp fun _ after => ⟨after.1, after.2.1, fact⟩

/-- One of some claims is known after a step. -/
theorem intro {ι : Type} [Inhabited ι] {each : α → ι → Claim} (i : α → ι)
    (does : Does pre m fun a => each a (i a)) : Does pre m fun a => .some (each a) :=
  does.imp (fun _ _ _ known => known) fun a _ _ _ known => ⟨i a, known⟩

/-- One of some claims is known before a step. -/
theorem elim {ι : Type} [Inhabited ι] {each : ι → Claim} (does : ∀ i, Does (each i) m post) :
    Does (.some each) m post := by
  intro r c a r' c' run recovers
  obtain ⟨recovers', dirty, -⟩ := does default r c a r' c' run recovers
  exact ⟨recovers', dirty, fun w base known => known.elim fun i =>
    (does i r c a r' c' run recovers).2.2 w base⟩

/-- Slots may say less. -/
theorem weaken {outs outs' : α → World → List Slot}
    (does : Does pre m fun a => .nested (Q a) (outs a)) (weaker : ∀ a w, List.Forall₂
      (fun x y => x.handle = y.handle ∧ ∀ r, x.form r → y.form r) (outs a w) (outs' a w)) :
    Does pre m fun a => .nested (Q a) (outs' a) := by
  refine does.imp (fun _ _ _ known => known) fun a w base c known => known.imp_right ?_
  rintro ⟨trees, stands, fits, fact⟩
  obtain ⟨upper, lower, rfl, first, later⟩ := fits_append.mp fits
  exact ⟨upper ++ lower, stands,
    fits_append.mpr ⟨upper, lower, rfl, first.weaken (weaker a w), later⟩, fact⟩

end Frames

end Does

/-! ## Steps of the reader -/

section Reader

variable {α : Type} {pre other : Claim} {post : α → Claim}

@[simp] theorem run_advance (r : Reader) (c : Checker) : advance r c = .ok (((), r.advanced), c) :=
  rfl

@[simp] theorem run_current (r : Reader) (c : Checker) : current r c = .ok ((r.current, r), c) :=
  rfl

@[simp] theorem run_position (r : Reader) (c : Checker) : position r c = .ok ((r.pos, r), c) := rfl

@[simp] theorem run_check (kind : TokenKind) (r : Reader) (c : Checker) :
    check kind r c = .ok ((r.current.kind == kind, r), c) := rfl

@[simp] theorem run_accept (kind : TokenKind) (r : Reader) (c : Checker) : accept kind r c =
    .ok (if r.current.kind == kind then ((true, r.advanced), c) else ((false, r), c)) := by
  rw [accept, run_bind_eq, run_check]
  cases r.current.kind == kind <;> rfl

theorem recovering_advanced (r : Reader) : r.advanced.recovering = r.recovering := by
  unfold Reader.advanced
  split <;> rfl

namespace Does

theorem advance : Does pre Grammar.advance fun _ => pre :=
  quiet fun r c a r' c' run => by
    cases run
    exact ⟨rfl, fun on => recovering_advanced r ▸ on⟩

theorem current : Does pre Grammar.current fun _ => pre :=
  quiet fun r c a r' c' run => by cases run; exact ⟨rfl, id⟩

theorem position : Does pre Grammar.position fun _ => pre :=
  quiet fun r c a r' c' run => by cases run; exact ⟨rfl, id⟩

theorem peek : Does pre Grammar.peek fun _ => pre :=
  quiet fun r c a r' c' run => by cases run; exact ⟨rfl, id⟩

theorem isFunctionAhead : Does pre Grammar.isFunctionAhead fun _ => pre :=
  quiet fun r c a r' c' run => by cases run; exact ⟨rfl, id⟩

theorem check (kind : TokenKind) : Does pre (Grammar.check kind) fun _ => pre :=
  quiet fun r c a r' c' run => by cases run; exact ⟨rfl, id⟩

theorem get : Does pre (MonadState.get : Parse Reader) fun _ => pre :=
  quiet fun r c a r' c' run => by cases run; exact ⟨rfl, id⟩

theorem spanFrom (start : Location) : Does pre (Grammar.spanFrom start) fun _ => pre :=
  quiet fun r c a r' c' run => by cases run; exact ⟨rfl, id⟩

theorem accept (kind : TokenKind) : Does pre (Grammar.accept kind) fun _ => pre :=
  quiet fun r c a r' c' run => by
    rw [run_accept] at run
    split at run
    · cases run
      exact ⟨rfl, fun on => recovering_advanced r ▸ on⟩
    · cases run
      exact ⟨rfl, id⟩

/-- The start of a rule changes nothing that is known. -/
theorem within {m : Parse α} (rule : Rule) (body : Does pre m post) :
    Does pre (Grammar.within rule m) post := by
  intro r c a r' c' run recovers
  obtain ⟨r₀, _, _, got, run⟩ := run_bind.1 run
  cases got
  obtain ⟨s, _, _, got, run⟩ := run_bind.1 run
  cases got
  dsimp only at run
  split at run
  · cases run
  · obtain ⟨_, r₁, c₁, set, run⟩ := run_bind.1 run
    cases set
    obtain ⟨b, r₂, c₂, done, run⟩ := run_bind.1 run
    obtain ⟨recovers', dirty, holds⟩ := body _ _ _ _ _ done recovers
    cases run
    exact ⟨recovers', dirty, holds⟩

/-- A report of something missing makes any claim true. -/
theorem reportMissing (what : String) : Does pre (Grammar.reportMissing what) fun _ => other := by
  intro r c a r' c' run recovers
  obtain ⟨r₀, _, _, got, run⟩ := run_bind.1 run
  cases got
  split at run
  next on =>
    cases run
    exact ⟨recovers, id, fun _ _ _ => other.absorbs (recovers on)⟩
  next =>
    obtain ⟨_, r₁, c₁, reported, run⟩ := run_bind.1 run
    obtain ⟨rfl, reported⟩ := run_lift.1 reported
    have dirty := of_run (report_spec _ _) reported
    cases run
    exact ⟨fun _ => dirty, fun _ => dirty, fun _ _ _ => other.absorbs dirty⟩

/-- A token that is not there makes any claim true. -/
theorem expect (kind : TokenKind) (what : String) :
    Does pre (Grammar.expect kind what) fun found => if found = true then pre else other := by
  refine .bind (.accept kind) fun found => ?_
  cases found with
  | true => exact .pure rfl
  | false => exact .bind (.reportMissing what) fun _ => .pure rfl

/-- A rule that ends when a token is missing. -/
theorem expectElse (kind : TokenKind) (what : String) {m : Parse α} {a : α}
    (rest : Does pre m post) : Does pre (Grammar.expect kind what >>= fun found =>
      if (!found) = true then Pure.pure a else m) post :=
  .bind (.expect kind what) fun found => by
    cases found with
    | true => exact rest
    | false => exact Does.pure (rfl : post a = post a)

theorem want (kind : TokenKind) (what : String) : Does pre (Grammar.want kind what) fun _ => pre :=
  .bind (.expect kind what) fun found => by
    cases found with
    | true => exact .pure rfl
    | false => exact .pure rfl

theorem skipStatement (left : Nat) : Does pre (Grammar.skipStatement left) fun _ => pre := by
  induction left with
  | zero => exact .pure rfl
  | succ left ih =>
    refine .within _ (.bind (.check _) fun stop => .bind (.check _) fun close =>
      .ite (fun _ => .pure rfl) fun _ => ?_)
    exact .bind (.accept _) fun found => .ite (fun _ => .pure rfl) fun _ =>
      .bind .advance fun _ => ih

/-- The end of a recovery. -/
theorem synchronize : Does pre Grammar.synchronize fun _ => pre := by
  have finish : Does pre (modify fun r : Reader => { r with recovering := false }) fun _ => pre :=
    quiet fun r c a r' c' run => by cases run; exact ⟨rfl, by simp⟩
  refine .bind .get fun r => .ite (fun _ => .pure rfl) fun _ => ?_
  exact .ite (fun _ => .bind (.skipStatement _) fun _ => finish) fun _ => finish

end Does

end Reader

end Grammar

end BilingualC
