import Mathlib
import BilingualC.Proofs.Grammar.Claims

/-!
# Two runs side by side

A coupling says what two runs of the reader have in common between any two of their steps, and which
faults excuse that they do not end in the same way. `Coupling.Steps` is said of steps of the checker
and `Coupling.Reads` of steps of the reader: taken side by side from states that have something in
common, both end alike. The second run may get lost, where the first one need not follow it any
more; it never comes back.

The rules of the grammar are read in step (`Coupling.Expressions` and the modules after it), so that
what is left to show for a coupling are the steps of the checker.
-/

namespace BilingualC

open Grammar

/-- Tokens that say the same, each at its own place. -/
structure Token.Alike (place : Location → Location → Prop) (t u : Token) : Prop where
  kind : t.kind = u.kind
  intValue : t.intValue = u.intValue
  floatValue : t.floatValue = u.floatValue
  spelling : t.spelling = u.spelling
  stringIndex : t.stringIndex = u.stringIndex
  loc : place t.loc u.loc

/-- What two runs of the reader have in common. -/
structure Coupling where
  /-- The places of the same thing in both runs. -/
  place : Location → Location → Prop
  /-- The first run may end with these faults, whatever the second one does. -/
  left : Fault → Prop
  /-- The second run may end with these faults, whatever the first one does. -/
  right : Fault → Prop
  /-- Both runs may end with these faults together. -/
  both : Fault → Fault → Prop
  first : Watch
  second : Watch
  /-- What is known between two steps that hold some nodes, the newest first. -/
  holds : List (Handle × Handle) → Checker → Checker → Prop
  /-- The second run need not be followed from here on. -/
  lost : Checker → Prop
  refl : ∀ l, place l l
  span : ∀ {a b l m}, place a b → place l m → place (.span a l) (.span b m)
  push : ∀ {held c d}, holds held c d → holds ((.broken, .broken) :: held) c d
  drop : ∀ {held less c d}, less.Sublist held → holds held c d → holds less c d
  blind : ∀ {c}, lost c → ∀ f, right f
  patient : left .endless → ∀ c, ¬ lost c
  endless : both .endless .endless
  stopped : both .stopped .stopped
  /-- The runs stop at the same starts of rules, or the second one stops where the first one cannot
  go on. -/
  starts : ∀ rule pos {t u p q} trail {c d}, t.Alike place u → p.Alike place q → holds [] c d →
    first ⟨rule, pos, t, p, trail, c.session⟩ = second ⟨rule, pos, u, q, trail, d.session⟩ ∨
    (rule = .members ∧ second ⟨rule, pos, u, q, trail, d.session⟩ = true ∧ ∀ depth r, r.pos = pos →
    r.current = t → r.previous = p → r.watch = first → ∃ f, members depth r c = .error f ∧
    (left f ∨ both f .stopped))

namespace Coupling

variable {κ : Coupling} {α β γ δ : Type}

/-! ## Ends of runs -/

/-- Faults with which both runs may end. -/
def Excused (κ : Coupling) (f g : Fault) : Prop := κ.left f ∨ κ.right g ∨ κ.both f g

/-- Two runs end alike. -/
def Meets (κ : Coupling) (lost : δ → Prop) (x : Guarded γ) (y : Guarded δ)
    (Q : γ → δ → Prop) : Prop :=
  match x, y with
  | .ok p, .ok q => Q p q ∨ lost q
  | .ok _, .error g => κ.right g
  | .error f, .ok q => κ.left f ∨ lost q
  | .error f, .error g => κ.Excused f g

section Meets

variable {lost : δ → Prop} {x : Guarded γ} {y : Guarded δ} {Q Q' : γ → δ → Prop}

theorem Meets.mono (meets : κ.Meets lost x y Q) (weaker : ∀ p q, Q p q → Q' p q) :
    κ.Meets lost x y Q' := by
  cases x <;> cases y
  case ok.ok => exact meets.imp_left (weaker _ _)
  all_goals exact meets

/-- A run that goes on from an answer; a lost run stays lost. -/
theorem Meets.bind {γ' δ' : Type} {lost' : δ' → Prop} {f : γ → Guarded γ'}
    {g : δ → Guarded δ'} {R : γ' → δ' → Prop} (meets : κ.Meets lost x y Q)
    (blind : ∀ q, lost q → ∀ f, κ.right f) (next : ∀ p q, Q p q → κ.Meets lost' (f p) (g q) R)
    (stays : ∀ q q', g q = .ok q' → lost q → lost' q') : κ.Meets lost' (x >>= f) (y >>= g) R := by
  -- Whatever the first run does, it need not follow the second one.
  have gone (z : Guarded γ') (q : δ) (away : lost q) : κ.Meets lost' z (g q) R := by
    cases second : g q with
    | ok q' =>
      have away' := stays q q' second away
      cases z with
      | ok p => exact .inr away'
      | error e => exact .inr away'
    | error e =>
      cases z with
      | ok p => exact blind q away e
      | error e' => exact .inr (.inl (blind q away e))
  cases x with
  | ok p =>
    cases y with
    | ok q => exact meets.elim (next p q) (gone (f p) q)
    | error e =>
      show κ.Meets lost' (f p) (.error e) R
      cases f p with
      | ok p' => exact meets
      | error e' => exact .inr (.inl meets)
  | error e =>
    cases y with
    | ok q =>
      rcases meets with excused | away
      · show κ.Meets lost' (.error e) (g q) R
        cases g q with
        | ok q' => exact .inl excused
        | error e' => exact .inl excused
      · exact gone (.error e) q away
    | error e' => exact meets

end Meets

/-! ## Steps of the checker -/

/-- What is known of two states. -/
abbrev Claim := Checker → Checker → Prop

/-- Nodes are held, and something else is known. -/
def knows (κ : Coupling) (p : Prop) (held : List (Handle × Handle)) : Claim :=
  fun c d => p ∧ κ.holds held c d

/-- Steps of the checker that end alike. -/
structure Steps (κ : Coupling) (P : Claim) (m n : Check α) (Q : α → α → Claim) : Prop where
  meets : ∀ c d, P c d → κ.Meets (fun q => κ.lost q.2) (m c) (n d) fun p q => Q p.1 q.1 p.2 q.2
  stays : ∀ d b d', n d = .ok (b, d') → κ.lost d → κ.lost d'

namespace Steps

variable {P P' : Claim} {m n : Check α} {Q Q' : α → α → Claim} {f g : α → Check β}
    {R : β → β → Claim}

theorem mono (steps : κ.Steps P m n Q) (before : ∀ c d, P' c d → P c d)
    (after : ∀ a b c d, Q a b c d → Q' a b c d) : κ.Steps P' m n Q' :=
  ⟨fun c d known => (steps.meets c d (before c d known)).mono fun p q => after p.1 q.1 p.2 q.2,
    steps.stays⟩

theorem pure {a b : α} (known : ∀ c d, P c d → Q a b c d) :
    κ.Steps P (Pure.pure a) (Pure.pure b) Q :=
  ⟨fun c d before => .inl (known c d before), fun d _ _ run lost => by cases run; exact lost⟩

theorem bind (first : κ.Steps P m n Q) (second : ∀ a b, κ.Steps (Q a b) (f a) (g b) R) :
    κ.Steps P (m >>= f) (n >>= g) R where
  meets c d known := (first.meets c d known).bind (fun _ => κ.blind) (fun p q =>
    (second p.1 q.1).meets p.2 q.2) fun q q' run => (second q.1 q.1).stays q.2 q'.1 q'.2 run
  stays d b d' run lost := by
    obtain ⟨⟨a, d₁⟩, run₁, run₂⟩ := Guarded.bind_eq_ok.mp run
    exact (second a a).stays d₁ b d' run₂ (first.stays d a d₁ run₁ lost)

/-- Steps that are taken only if something is so. -/
theorem given {p : Prop} (possible : p) (steps : p → κ.Steps P m n Q) :
    κ.Steps (fun c d => p ∧ P c d) m n Q :=
  (steps possible).mono (fun _ _ known => known.2) fun _ _ _ _ known => known

theorem ite {p : Prop} [Decidable p] {m' n' : Check α} (yes : p → κ.Steps P m n Q)
    (no : ¬p → κ.Steps P m' n' Q) : κ.Steps P (if p then m else m') (if p then n else n') Q := by
  by_cases holds : p
  · rw [if_pos holds, if_pos holds]
    exact yes holds
  · rw [if_neg holds, if_neg holds]
    exact no holds

end Steps

/-! ## Steps of the reader -/

/-- Two readers are at the same place of tokens that say the same. -/
structure Beside (κ : Coupling) (r s : Reader) : Prop where
  tokens : List.Forall₂ (Token.Alike κ.place) r.tokens.toList s.tokens.toList
  pos : r.pos = s.pos
  current : r.current.Alike κ.place s.current
  previous : r.previous.Alike κ.place s.previous
  recovering : r.recovering = s.recovering
  trail : r.trail = s.trail
  first : r.watch = κ.first
  second : s.watch = κ.second

/-- Steps of the reader that end alike. -/
structure Reads (κ : Coupling) (P : Claim) (m n : Parse α) (Q : α → α → Claim) : Prop where
  meets : ∀ r s c d, κ.Beside r s → P c d → κ.Meets (fun q => κ.lost q.2) (m r c) (n s d) fun p q =>
    κ.Beside p.1.2 q.1.2 ∧ Q p.1.1 q.1.1 p.2 q.2
  stays : ∀ s d b s' d', n s d = .ok ((b, s'), d') → κ.lost d → κ.lost d'

theorem alike_refl (κ : Coupling) (t : Token) : t.Alike κ.place t :=
  ⟨rfl, rfl, rfl, rfl, rfl, κ.refl _⟩

namespace Reads

variable {P P' : Claim} {m n : Parse α} {Q Q' : α → α → Claim} {f g : α → Parse β}
    {R : β → β → Claim} {held : List (Handle × Handle)}

theorem mono (reads : κ.Reads P m n Q) (before : ∀ c d, P' c d → P c d)
    (after : ∀ a b c d, Q a b c d → Q' a b c d) : κ.Reads P' m n Q' :=
  ⟨fun r s c d beside known => (reads.meets r s c d beside (before c d known)).mono fun p q =>
    And.imp_right (after p.1.1 q.1.1 p.2 q.2), reads.stays⟩

theorem pure {a b : α} (known : ∀ c d, P c d → Q a b c d) :
    κ.Reads P (Pure.pure a) (Pure.pure b) Q :=
  ⟨fun _ _ c d beside before => .inl ⟨beside, known c d before⟩,
    fun s d _ _ _ run lost => by cases run; exact lost⟩

theorem bind (first : κ.Reads P m n Q) (second : ∀ a b, κ.Reads (Q a b) (f a) (g b) R) :
    κ.Reads P (m >>= f) (n >>= g) R where
  meets r s c d beside known := by
    rw [run_bind_eq, run_bind_eq]
    exact (first.meets r s c d beside known).bind (fun _ => κ.blind)
      (fun p q both => (second p.1.1 q.1.1).meets p.1.2 q.1.2 p.2 q.2 both.1 both.2)
      fun q q' run => (second q.1.1 q.1.1).stays q.1.2 q.2 q'.1.1 q'.1.2 q'.2 run
  stays s d b s' d' run lost := by
    obtain ⟨a, s₁, d₁, run₁, run₂⟩ := run_bind.mp run
    exact (second a a).stays s₁ d₁ b s' d' run₂ (first.stays s d a s₁ d₁ run₁ lost)

/-- The results of the first steps say the same. -/
theorem thread {V : α → α → Prop} (refl : ∀ a, V a a) {more : α → α → List (Handle × Handle)}
    (first : κ.Reads P m n fun a b => κ.knows (V a b) (more a b))
    (second : ∀ a b, V a b → κ.Reads (κ.holds (more a b)) (f a) (g b) R) :
    κ.Reads P (m >>= f) (n >>= g) R where
  meets r s c d beside known := by
    rw [run_bind_eq, run_bind_eq]
    exact (first.meets r s c d beside known).bind (fun _ => κ.blind)
      (fun p q both => (second p.1.1 q.1.1 both.2.1).meets p.1.2 q.1.2 p.2 q.2 both.1 both.2.2)
      fun q q' run => (second q.1.1 q.1.1 (refl _)).stays q.1.2 q.2 q'.1.1 q'.1.2 q'.2 run
  stays s d b s' d' run lost := by
    obtain ⟨a, s₁, d₁, run₁, run₂⟩ := run_bind.mp run
    exact (second a a (refl a)).stays s₁ d₁ b s' d' run₂ (first.stays s d a s₁ d₁ run₁ lost)

/-- The results of the first steps are the same. -/
theorem same {more : α → List (Handle × Handle)}
    (first : κ.Reads P m n fun a b => κ.knows (a = b) (more a))
    (second : ∀ a, κ.Reads (κ.holds (more a)) (f a) (g a) R) : κ.Reads P (m >>= f) (n >>= g) R :=
  thread (fun _ => rfl) (show κ.Reads P m n fun a b => κ.knows (a = b) ((fun a _ => more a) a b)
    from first) fun a _ same => same ▸ second a

theorem ite {p : Prop} [Decidable p] {m' n' : Parse α} (yes : p → κ.Reads P m n Q)
    (no : ¬p → κ.Reads P m' n' Q) : κ.Reads P (if p then m else m') (if p then n else n') Q := by
  by_cases holds : p
  · rw [if_pos holds, if_pos holds]
    exact yes holds
  · rw [if_neg holds, if_neg holds]
    exact no holds

/-- Steps of the checker. -/
theorem lift {m n : Check α} (steps : κ.Steps P m n Q) : κ.Reads P (liftM m) (liftM n) Q where
  meets r s c d beside known := by
    have run (l : Check α) (o : Reader) (e : Checker) :
        (liftM l : Parse α) o e = (l e >>= fun p => .ok ((p.1, o), p.2)) :=
      rfl
    rw [run, run]
    exact (steps.meets c d known).bind (fun _ => κ.blind) (fun p q known => .inl ⟨beside, known⟩)
      fun q q' run lost => by cases run; exact lost
  stays s d _ s' d' run := by
    obtain ⟨-, done⟩ := run_lift.mp run
    exact steps.stays d _ d' done

/-- Steps that change nothing but the place of a reader. -/
theorem quiet {a b : Reader → α} {V : α → α → Prop} {move : Reader → Reader}
    (runs : ∀ r c, m r c = .ok ((a r, move r), c)) (runs' : ∀ r c, n r c = .ok ((b r, move r), c))
    (beside : ∀ {r s}, κ.Beside r s → κ.Beside (move r) (move s))
    (value : ∀ {r s}, κ.Beside r s → V (a r) (b s)) : κ.Reads (κ.holds held) m n fun a b =>
    κ.knows (V a b) held where
  meets r s c d aside known := by
    rw [runs, runs']
    exact .inl ⟨beside aside, value aside, known⟩
  stays s d _ _ _ run lost := by
    rw [runs'] at run
    cases run
    exact lost

end Reads

/-! ### Tokens -/

namespace Beside

variable {r s : Reader}

theorem size (beside : κ.Beside r s) : r.tokens.size = s.tokens.size := by
  simpa using beside.tokens.length_eq

theorem getD (beside : κ.Beside r s) (i : Nat) {t u : Token} (default : t.Alike κ.place u) :
    (r.tokens.getD i t).Alike κ.place (s.tokens.getD i u) := by
  rw [Array.getD_eq_getD_getElem?, Array.getD_eq_getD_getElem?]
  by_cases inside : i < r.tokens.size
  · have both := beside.size ▸ inside
    rw [Array.getElem?_eq_getElem inside, Array.getElem?_eq_getElem both]
    exact beside.tokens.get (by simpa using inside) (by simpa using both)
  · rw [Array.getElem?_eq_none (by omega), Array.getElem?_eq_none (by rw [← beside.size]; omega)]
    exact default

theorem back (beside : κ.Beside r s) :
    (r.tokens.back?.getD r.current).Alike κ.place (s.tokens.back?.getD s.current) := by
  rw [Array.back?, Array.back?, ← Array.getD_eq_getD_getElem?, ← Array.getD_eq_getD_getElem?,
    beside.size]
  exact beside.getD _ beside.current

theorem advanced (beside : κ.Beside r s) : κ.Beside r.advanced s.advanced := by
  have here := beside.pos
  have size := beside.size
  unfold Reader.advanced
  by_cases more : s.pos + 1 < s.tokens.size
  · rw [if_pos more, if_pos (by omega)]
    refine ⟨beside.tokens, congrArg (· + 1) here, ?_, beside.current, beside.recovering,
      beside.trail, beside.first, beside.second⟩
    show Token.Alike κ.place (r.tokens.getD (r.pos + 1) r.current) _
    rw [here]
    exact beside.getD _ beside.current
  · rw [if_neg more, if_neg (by omega)]
    exact ⟨beside.tokens, here, beside.current, beside.current, beside.recovering, beside.trail,
      beside.first, beside.second⟩

theorem recover (beside : κ.Beside r s) (recovering : Bool) :
    κ.Beside { r with recovering } { s with recovering } :=
  ⟨beside.tokens, beside.pos, beside.current, beside.previous, rfl, beside.trail, beside.first,
    beside.second⟩

theorem withTrail (beside : κ.Beside r s) {trail trail' : List (Rule × Nat)}
    (same : trail = trail') : κ.Beside { r with trail } { s with trail := trail' } :=
  ⟨beside.tokens, beside.pos, beside.current, beside.previous, beside.recovering, same,
    beside.first, beside.second⟩

/-- Whether a function follows depends on the kinds of the tokens only. -/
theorem functionFollows {a b : List Token} (alike : List.Forall₂ (Token.Alike κ.place) a b) :
    Grammar.functionFollows a = Grammar.functionFollows b := by
  induction alike with
  | nil => rfl
  | @cons t u rest more same others ih =>
    rw [Grammar.functionFollows, Grammar.functionFollows, same.kind, ih]
    cases others with
    | nil => rfl
    | cons next _ => simp [next.kind]

end Beside

namespace Reads

variable {held : List (Handle × Handle)}

theorem advance : κ.Reads (κ.holds held) Grammar.advance Grammar.advance fun _ _ => κ.holds held :=
  (quiet (V := fun _ _ => True) (fun _ _ => rfl) (fun _ _ => rfl) Beside.advanced fun _ =>
    trivial).mono (fun _ _ => id) fun _ _ _ _ => And.right

theorem current : κ.Reads (κ.holds held) Grammar.current Grammar.current fun t u =>
    κ.knows (t.Alike κ.place u) held :=
  quiet (fun _ _ => rfl) (fun _ _ => rfl) id Beside.current

theorem position : κ.Reads (κ.holds held) Grammar.position Grammar.position fun p q =>
    κ.knows (p = q) held :=
  quiet (fun _ _ => rfl) (fun _ _ => rfl) id Beside.pos

theorem peek : κ.Reads (κ.holds held) Grammar.peek Grammar.peek fun t u =>
    κ.knows (t.Alike κ.place u) held :=
  quiet (fun _ _ => rfl) (fun _ _ => rfl) id fun beside => by
    rw [beside.pos]
    exact beside.getD _ beside.back

theorem check (kind : TokenKind) : κ.Reads (κ.holds held) (Grammar.check kind)
    (Grammar.check kind) fun a b => κ.knows (a = b) held :=
  quiet (fun _ _ => rfl) (fun _ _ => rfl) id fun beside => by rw [beside.current.kind]

theorem isFunctionAhead :
    κ.Reads (κ.holds held) Grammar.isFunctionAhead Grammar.isFunctionAhead fun a b =>
    κ.knows (a = b) held :=
  quiet (fun _ _ => rfl) (fun _ _ => rfl) id fun beside => by
    rw [beside.pos]
    exact Beside.functionFollows (List.forall₂_drop _ beside.tokens)

theorem spanFrom {start start' : Location} (same : κ.place start start') :
    κ.Reads (κ.holds held) (Grammar.spanFrom start) (Grammar.spanFrom start') fun l l' =>
    κ.knows (κ.place l l') held :=
  quiet (fun _ _ => rfl) (fun _ _ => rfl) id fun beside => κ.span same beside.previous.loc

theorem accept (kind : TokenKind) :
    κ.Reads (κ.holds held) (Grammar.accept kind) (Grammar.accept kind) fun a b =>
    κ.knows (a = b) held := by
  refine .same (.check kind) fun found => .ite (fun _ => ?_) fun _ => .pure fun _ _ known =>
    ⟨rfl, known⟩
  exact .bind .advance fun _ _ => .pure fun _ _ known => ⟨rfl, known⟩

end Reads

/-! ### Rules -/

/-- How deep rules may nest in two runs; the second run may go deeper if the first one need not come
to an end. -/
def Deep (κ : Coupling) (d e : Nat) : Prop := d = e ∨ (κ.left .endless ∧ d ≤ e)

theorem Deep.succ {d e : Nat} (deep : κ.Deep (d + 1) e) : ∃ e', e = e' + 1 ∧ κ.Deep d e' := by
  rcases deep with rfl | ⟨patient, le⟩
  · exact ⟨d, rfl, .inl rfl⟩
  · exact ⟨e - 1, by omega, .inr ⟨patient, by omega⟩⟩

namespace Reads

variable {P : Claim} {m n : Parse α} {Q : α → α → Claim} {held : List (Handle × Handle)}

/-- A rule without depth. -/
theorem endless {depth : Nat} (deep : κ.Deep 0 depth) (shallow : m = throw .endless)
    (shallow' : depth = 0 → n = throw .endless) : κ.Reads P m n Q := by
  subst shallow
  rcases deep with rfl | ⟨patient, -⟩
  · rw [shallow' rfl]
    exact ⟨fun _ _ _ _ _ _ => .inr (.inr κ.endless), fun _ _ _ _ _ run => by cases run⟩
  · refine ⟨fun r s c d _ _ => ?_, fun _ d _ _ _ _ lost => absurd lost (κ.patient patient d)⟩
    show κ.Meets _ (.error .endless) (n s d) _
    cases n s d with
    | ok q => exact .inl patient
    | error g => exact .inl patient

theorem run_within {rule : Rule} (r : Reader) (c : Checker) : within rule m r c =
    if r.watch ⟨rule, r.pos, r.current, r.previous, r.trail, c.session⟩ = true then .error .stopped
    else m { r with trail := (rule, r.pos) :: r.trail } c >>= fun out => .ok
    ((out.1.1, { out.1.2 with trail := r.trail }), out.2) := by
  unfold Grammar.within
  rw [run_bind_eq]
  show (if r.watch _ = true then throw .stopped else _ : Parse α) r c = _
  split <;> rfl

theorem within_stays {rule : Rule} (reads : κ.Reads P m n Q)
    {s : Reader} {d : Checker} {b : α} {s' : Reader} {d' : Checker}
    (run : within rule n s d = .ok ((b, s'), d')) (lost : κ.lost d) : κ.lost d' := by
  rw [run_within] at run
  split at run
  · cases run
  · obtain ⟨⟨⟨a, s₁⟩, d₁⟩, inner, rest⟩ := Guarded.bind_eq_ok.mp run
    cases rest
    exact reads.stays _ d _ s₁ _ inner lost

/-- The bodies of a rule, where both runs apply it. -/
theorem within_meets {rule : Rule} {r s : Reader} {c d : Checker}
    (reads : κ.Reads P m n Q) (beside : κ.Beside r s) (known : P c d)
    (same : r.watch ⟨rule, r.pos, r.current, r.previous, r.trail, c.session⟩ =
      s.watch ⟨rule, s.pos, s.current, s.previous, s.trail, d.session⟩) :
    κ.Meets (fun q => κ.lost q.2) (within rule m r c) (within rule n s d) fun p q =>
    κ.Beside p.1.2 q.1.2 ∧ Q p.1.1 q.1.1 p.2 q.2 := by
  rw [run_within, run_within, same]
  split
  · exact .inr (.inr κ.stopped)
  · have inside : κ.Beside { r with trail := (rule, r.pos) :: r.trail } { s with
      trail := (rule, s.pos) :: s.trail } :=
      beside.withTrail (by rw [beside.pos, beside.trail])
    refine (reads.meets _ _ c d inside known).bind (fun _ => κ.blind) (fun p q both =>
      .inl ⟨both.1.withTrail beside.trail, both.2⟩) ?_
    rintro q _ ⟨⟩ lost
    exact lost

theorem starts_alike {rule : Rule} {r s : Reader} {c d : Checker} (beside : κ.Beside r s)
    (known : κ.holds held c d) : r.watch ⟨rule, r.pos, r.current, r.previous, r.trail, c.session⟩ =
    s.watch ⟨rule, s.pos, s.current, s.previous, s.trail, d.session⟩ ∨
    (rule = .members ∧ s.watch ⟨rule, s.pos, s.current, s.previous, s.trail, d.session⟩ = true ∧
      ∀ depth, ∃ f, members depth r c = .error f ∧ (κ.left f ∨ κ.both f .stopped)) := by
  rw [beside.first, beside.second, beside.pos, beside.trail]
  refine (κ.starts rule s.pos s.trail beside.current beside.previous
    (κ.drop (List.nil_sublist _) known)).imp_right ?_
  exact fun ⟨isMembers, stops, fails⟩ =>
    ⟨isMembers, stops, fun depth => fails depth r beside.pos rfl rfl beside.first⟩

theorem within {rule : Rule} (other : rule ≠ .members) (reads : κ.Reads (κ.holds held) m n Q) :
    κ.Reads (κ.holds held) (within rule m) (within rule n) Q where
  meets _ _ _ _ beside known :=
    within_meets reads beside known ((starts_alike beside known).resolve_right fun stuck =>
      other stuck.1)
  stays _ _ _ _ _ := within_stays reads

/-- The second run may stop at the members of a structure where the first one cannot go on. -/
theorem withinMembers {m n : Parse (List Checker.WrittenField)}
    {Q : List Checker.WrittenField → List Checker.WrittenField → Claim} (depth : Nat)
    (isMembers : members depth = Grammar.within .members m) (reads : κ.Reads (κ.holds held) m n Q) :
    κ.Reads (κ.holds held) (Grammar.within .members m) (Grammar.within .members n) Q where
  meets r s c d beside known := by
    rcases starts_alike beside known with same | ⟨-, stops, fails⟩
    · exact within_meets reads beside known same
    · obtain ⟨f, failed, excused⟩ := fails depth
      rw [← isMembers, failed, run_within, if_pos stops]
      exact excused.imp_right .inr
  stays _ _ _ _ _ := within_stays reads

end Reads

end Coupling

end BilingualC
