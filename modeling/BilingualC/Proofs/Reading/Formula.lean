import Mathlib
import BilingualC.Proofs.Reading.Steps
import BilingualC.Proofs.Total.Formula

/-!
# Reading a formula that was printed

`Formula.print` writes a formula down with as few parentheses as precedence and grouping allow:
binary operators and commas group to the left, assignments and conditional expressions to the right.
The reader makes the tree of the formula from these tokens (`reads_print`).

The proof goes by levels, one for each rule of the grammar (`Formula.Readable`). Operands that group
to the left are read by a loop, which does not know where the left operand ends. For such levels it
is therefore said that reading the formula is one part of a run of the loop, whatever comes after it
(`ReadsBinary`).
-/

namespace BilingualC

open Guarded Grammar

/-! ## Printing -/

/-- What a token shows: a name or a sign. -/
inductive Glyph where
  | name (spelling : Int)
  | sign (kind : TokenKind)
deriving DecidableEq

def Token.glyph (tok : Token) : Glyph :=
  if tok.kind = .identifier then .name tok.spelling else .sign tok.kind

/-- Parentheses where they are needed. -/
def enclose (needed : Bool) (inner : List Glyph) : List Glyph :=
  if needed then .sign .leftParen :: inner ++ [.sign .rightParen] else inner

namespace Formula

/-- How close a formula binds its operands. -/
def level : Formula → Nat
  | name _ => 15
  | unary _ _ => 14
  | binary sign _ _ => sign.level
  | conditional _ _ _ => 2
  | store _ _ _ => 1
  | comma _ _ => 0

/-- A formula without parentheses around it. -/
def bare : Formula → List Glyph
  | name v => [.name v]
  | unary sign e => .sign sign.kind :: enclose (e.level < 14) e.bare
  | binary sign l r =>
    enclose (l.level < sign.level) l.bare ++ .sign sign.kind ::
      enclose (r.level < sign.level + 1) r.bare
  | conditional t y n =>
    enclose (t.level < 3) t.bare ++ .sign .question ::
    (enclose (y.level < 0) y.bare ++ .sign .colon :: enclose (n.level < 2) n.bare)
  | store sign v e => .name v :: .sign sign.kind :: enclose (e.level < 1) e.bare
  | comma l r => enclose (l.level < 0) l.bare ++ .sign .comma :: enclose (r.level < 1) r.bare

/-- A formula as an operand of a level. -/
def print (least : Nat) (e : Formula) : List Glyph := enclose (e.level < least) e.bare

theorem print_of_le {least : Nat} {e : Formula} (high : least ≤ e.level) :
    e.print least = e.bare := by
  rw [print, enclose, if_neg (by simpa using high)]

theorem print_of_lt {least : Nat} {e : Formula} (low : e.level < least) :
    e.print least = .sign .leftParen :: e.bare ++ [.sign .rightParen] := by
  rw [print, enclose, if_pos (by simpa using low)]

end Formula

/-! ## Places of a reader -/

namespace Reader

variable {r r' r'' : Reader} {tok : Token} {ahead : List Token} {n m : Nat}

/-- A reader has some tokens in front of it. -/
def Faces (r : Reader) (ahead : List Token) : Prop :=
  r.tokens.toList.drop r.pos = ahead ∧ ahead.head? = some r.current

/-- A reader has gone on. -/
def Passes (r r' : Reader) (count : Nat) : Prop :=
  r'.tokens = r.tokens ∧ r'.pos = r.pos + count ∧ r'.recovering = r.recovering ∧ r'.watch = r.watch

theorem Passes.trans (first : r.Passes r' n) (second : r'.Passes r'' m) : r.Passes r'' (n + m) := by
  obtain ⟨tokens, pos, recovering, watch⟩ := first
  obtain ⟨tokens', pos', recovering', watch'⟩ := second
  exact ⟨tokens'.trans tokens, by rw [pos', pos, Nat.add_assoc], recovering'.trans recovering,
    watch'.trans watch⟩

theorem Faces.here (faces : r.Faces (tok :: ahead)) : r.current = tok :=
  (Option.some.inj faces.2).symm

/-- A token is passed. -/
theorem Faces.advanced (faces : r.Faces (tok :: ahead)) (more : ahead ≠ []) :
    r.advanced.Faces ahead ∧ r.Passes r.advanced 1 := by
  obtain ⟨rest, -⟩ := faces
  obtain ⟨next, ahead, rfl⟩ := List.exists_cons_of_ne_nil more
  have inside : r.pos + 1 < r.tokens.size := by
    have length := congrArg List.length rest
    simp only [List.length_drop, Array.length_toList, List.length_cons] at length
    omega
  have behind : r.tokens.toList.drop (r.pos + 1) = next :: ahead := by
    rw [← List.drop_drop, rest]
    rfl
  have found : r.tokens[r.pos + 1]? = some next := by
    rw [← Array.getElem?_toList, ← List.head?_drop, behind]
    rfl
  rw [Reader.advanced, if_pos inside]
  refine ⟨⟨behind, ?_⟩, ⟨rfl, rfl, rfl, rfl⟩⟩
  show some next = some (r.tokens.getD (r.pos + 1) r.current)
  rw [Array.getD_eq_getD_getElem?, found]
  rfl

end Reader

/-! ## What may follow -/

namespace Grammar

/-- A token that does not go on with a formula that was printed as an operand of a level. -/
structure MayFollow (least : Nat) (kind : TokenKind) : Prop where
  apart : kind ∉ [.leftParen, .leftBracket, .dot, .arrow, .increment, .decrement]
  binary : ∀ op level, binaryOp? kind = some (op, level) → level < least
  question : least ≤ 2 → kind ≠ .question
  assign : least ≤ 1 → assignOp? kind = none
  comma : least = 0 → kind ≠ .comma

theorem MayFollow.mono {low high : Nat} {kind : TokenKind} (follows : MayFollow low kind)
    (le : low ≤ high) : MayFollow high kind where
  apart := follows.apart
  binary op level found := (follows.binary op level found).trans_le le
  question small := follows.question (le.trans small)
  assign small := follows.assign (le.trans small)
  comma none := follows.comma (by omega)

theorem binaryOp_level {kind : TokenKind} {op : BinaryOp} {level : Nat}
    (found : binaryOp? kind = some (op, level)) : 4 ≤ level ∧ level ≤ 13 := by
  cases kind <;> simp only [binaryOp?, Option.some.injEq, Prod.mk.injEq, reduceCtorEq] at found <;>
      obtain ⟨rfl, rfl⟩ :=
    found <;> decide

/-- Above the binary operators only calls, selections and steps go on with an operand. -/
theorem MayFollow.operand {least : Nat} {kind : TokenKind} (follows : MayFollow least kind) :
    MayFollow 14 kind where
  apart := follows.apart
  binary op level found := by have := (binaryOp_level found).2; omega
  question small := by omega
  assign small := by omega
  comma none := by omega

/-- An operator follows its left operand. -/
theorem mayFollow_binary (sign : BinarySign) : MayFollow (sign.level + 1) sign.kind where
  apart mem := by
    have found := sign.listed
    generalize sign.kind = kind at found mem
    simp only [List.mem_cons, List.not_mem_nil, or_false] at mem
    rcases mem with rfl | rfl | rfl | rfl | rfl | rfl <;> cases found
  binary op level found := by
    cases sign.listed.symm.trans found
    exact Nat.lt_succ_self _
  question small := by have := (binaryOp_level sign.listed).1; omega
  assign small := by have := (binaryOp_level sign.listed).1; omega
  comma none := by omega

theorem mayFollow_store (sign : StoreSign) : MayFollow 2 sign.kind where
  apart mem := by
    have found := sign.listed
    generalize sign.kind = kind at found mem
    simp only [List.mem_cons, List.not_mem_nil, or_false] at mem
    rcases mem with rfl | rfl | rfl | rfl | rfl | rfl <;> cases found
  binary op level other := by
    have found := sign.listed
    generalize sign.kind = kind at found other
    cases kind <;> first | cases found | cases other
  question _ question := by
    have found := sign.listed
    rw [question] at found
    cases found
  assign small := by omega
  comma none := by omega

theorem mayFollow_question : MayFollow 3 .question :=
  ⟨by decide, by simp [binaryOp?], by omega, by omega, by omega⟩

theorem mayFollow_colon : MayFollow 0 .colon :=
  ⟨by decide, by simp [binaryOp?], by simp, fun _ => rfl, by simp⟩

theorem mayFollow_closing : MayFollow 0 .rightParen :=
  ⟨by decide, by simp [binaryOp?], by simp, fun _ => rfl, by simp⟩

theorem mayFollow_comma : MayFollow 1 .comma :=
  ⟨by decide, by simp [binaryOp?], by simp, fun _ => rfl, by omega⟩

/-! ## Steps -/

section Steps

variable {β : Type} {r : Reader} {c : Checker} {R : β → Reader → Checker → Prop}

theorem reads_advance_to {g : Unit → Parse β}
    (next : Reads (fun _ => False) (g ()) r.advanced c R) :
    Reads (fun _ => False) (advance >>= g) r c R :=
  next

theorem reads_accept_found {g : Bool → Parse β} {kind : TokenKind} (same : r.current.kind = kind)
    (next : Reads (fun _ => False) (g true) r.advanced c R) :
    Reads (fun _ => False) (accept kind >>= g) r c R := by
  rw [Reads, run_bind_eq, run_accept, beq_iff_eq.mpr same]
  exact next

theorem reads_accept_other {g : Bool → Parse β} {kind : TokenKind} (other : r.current.kind ≠ kind)
    (next : Reads (fun _ => False) (g false) r c R) :
    Reads (fun _ => False) (accept kind >>= g) r c R := by
  rw [Reads, run_bind_eq, run_accept, beq_eq_false_iff_ne.mpr other]
  exact next

/-- A rule is applied by a reader without a watch. What is said after it is not about the rules that
are being applied. -/
theorem reads_inside {rule : Rule} {m : Parse β} (free : r.watch = unwatched)
    (blind : ∀ a r c trail, R a r c → R a { r with trail } c)
    (inner : Reads (fun _ => False) m { r with trail := (rule, r.pos) :: r.trail } c R) :
    Reads (fun _ => False) (within rule m) r c R :=
  reads_within (.inr (by rw [free]; rfl)) (inner.mono fun a r' c' known => blind a r' c' _ known)

end Steps

end Grammar

/-! ## Reading by levels -/

namespace Formula

open Checker

variable {e a b : Formula} {r : Reader} {c : Checker} {rest : List Rose} {front more : List Token}
    {next : Token} {least depth rank : Nat}

/-- A formula that was printed is in front of a reader, and the checker knows its variables. -/
structure Stands (e : Formula) (least : Nat) (front behind : List Token) (r : Reader) (c : Checker)
    (rest : List Rose) : Prop where
  watch : r.watch = unwatched
  faces : r.Faces (front ++ behind)
  printed : front.map Token.glyph = e.print least
  names : ∀ v ∈ e.names, c.session.NamesInt v
  carries : c.session.tree.Carries rest

/-- A formula was read. -/
def Read (e : Formula) (count : Nat) (behind : List Token) (r : Reader) (c : Checker)
    (rest : List Rose) (n : Handle) (r' : Reader) (c' : Checker) : Prop :=
  r.Passes r' count ∧ r'.Faces behind ∧ c.Gains rest e n c'

/-- A rule reads a formula that was printed as an operand of a level. -/
def ReadsBy (e : Formula) (least : Nat) (rule : Nat → Parse Handle) (rank : Nat) : Prop :=
  ∀ ⦃depth r c front next more rest⦄, e.Stands least front (next :: more) r c rest →
    MayFollow least next.kind → 8 * front.length + rank ≤ depth →
    Reads (fun _ => False) (rule depth) r c (e.Read front.length (next :: more) r c rest)

/-- A loop reads a formula that was printed as a left operand of a level, and goes on with what
comes after it. -/
def LeadsBy (e : Formula) (least : Nat) (first : Nat → Parse Handle)
    (tail : Nat → Handle → Parse Handle) (rank : Nat) : Prop :=
  ∀ ⦃depth r c front next more rest⦄ ⦃Q : Handle → Reader → Checker → Prop⦄,
    e.Stands least front (next :: more) r c rest → MayFollow (least + 1) next.kind →
    8 * front.length + rank ≤ depth → (∀ n r c trail, Q n r c → Q n { r with trail } c) →
    (∀ n r' c' depth', depth ≤ depth' + 8 * front.length → e.Read front.length
    (next :: more) r c rest n r' c' → Reads (fun _ => False) (tail depth' n) r' c' Q) →
    Reads (fun _ => False) (first depth >>= tail depth) r c Q

theorem Stands.inside {behind : List Token} (stands : e.Stands least front behind r c rest)
    (trail : List (Rule × Nat)) : e.Stands least front behind { r with trail } c rest :=
  ⟨stands.watch, stands.faces, stands.printed, stands.names, stands.carries⟩

theorem Stands.cast {behind : List Token} {high : Nat}
    (stands : e.Stands least front behind r c rest) (same : e.print least = e.print high) :
    e.Stands high front behind r c rest :=
  ⟨stands.watch, stands.faces, stands.printed.trans same, stands.names, stands.carries⟩

/-- A formula that is no left operand of its own level is read at once. -/
theorem ReadsBy.leads {first : Nat → Parse Handle} {tail : Nat → Handle → Parse Handle}
    {high : Nat} (reads : e.ReadsBy high first rank) (same : e.print least = e.print high)
    (follows : ∀ kind, MayFollow (least + 1) kind → MayFollow high kind) :
    e.LeadsBy least first tail rank := by
  intro depth r c front next more rest Q stands follow deep _ goes
  exact (reads (stands.cast same) (follows _ follow) deep).bind fun n r' c' read =>
    goes n r' c' depth (Nat.le_add_right _ _) read

/-! ### Binary operators -/

/-- The loop over binary operators ends in front of anything else. -/
theorem binaryTail_stops {low : Nat} {n : Handle} {Q : Handle → Reader → Checker → Prop}
    (free : r.watch = unwatched) (faces : r.Faces (next :: more)) (deep : 0 < depth)
    (stops : ∀ op level, binaryOp? next.kind = some (op, level) → level < low)
    (blind : ∀ n r c trail, Q n r c → Q n { r with trail } c) (known : Q n r c) :
    Reads (fun _ => False) (binaryTail depth low n) r c Q := by
  obtain ⟨depth, rfl⟩ := Nat.exists_eq_succ_of_ne_zero deep.ne'
  obtain rfl := faces.here
  rw [binaryTail]
  refine reads_inside free blind (reads_current ?_)
  have known := blind n r c ((.binaryTail, r.pos) :: r.trail) known
  split
  next => exact reads_pure known
  next op level found =>
    rw [if_pos (stops op level found)]
    exact reads_pure known

theorem read_blind (e : Formula) (count : Nat) (behind : List Token)
    (r : Reader) (c : Checker) (rest : List Rose) (n : Handle) (r' : Reader)
    (c' : Checker) (trail : List (Rule × Nat)) (read : e.Read count behind r c rest n r' c') :
    e.Read count behind r c rest n { r' with trail } c' :=
  read

/-- A formula is read up to the end of its binary operators. -/
theorem LeadsBy.binaryExpression {low : Nat}
    (leads : e.LeadsBy least unaryExpression (fun depth => binaryTail depth low) 4)
    (stands : e.Stands least front (next :: more) r c rest)
    (follow : MayFollow (least + 1) next.kind)
    (stops : ∀ op level, binaryOp? next.kind = some (op, level) → level < low)
    (deep : 8 * front.length + 5 ≤ depth) : Reads (fun _ => False) (binaryExpression depth low) r c
    (e.Read front.length (next :: more) r c rest) := by
  obtain ⟨depth, rfl⟩ := Nat.exists_eq_add_of_le' (Nat.le_of_add_left_le deep)
  rw [show depth + 5 = depth + 4 + 1 from rfl, Grammar.binaryExpression]
  refine reads_inside stands.watch (read_blind e _ _ r c rest) ?_
  refine leads (stands.inside _) follow (by omega)
    (read_blind e _ _ r c rest) fun n r' c' depth' left read => ?_
  exact binaryTail_stops (read.1.2.2.2.trans stands.watch) read.2.1 (by omega) stops
    (read_blind e _ _ r c rest) read

theorem kind_of_glyph {tok : Token} {kind : TokenKind} (shows : tok.glyph = .sign kind) :
    tok.kind = kind := by
  unfold Token.glyph at shows
  split at shows
  next => cases shows
  next => exact Glyph.sign.inj shows

/-- The tokens of two operands lie around the sign between them. -/
theorem Stands.split {behind : List Token} {kind : TokenKind}
    {before after : List Glyph} (stands : e.Stands least front behind r c rest)
    (printed : e.print least = before ++ .sign kind :: after) :
    ∃ fs tok gs, front = fs ++ tok :: gs ∧ fs.map Token.glyph = before ∧ tok.kind = kind ∧
    gs.map Token.glyph = after ∧ r.Faces (fs ++ tok :: (gs ++ behind)) := by
  obtain ⟨fs, others, rfl, first, second⟩ :=
    List.map_eq_append_iff.mp (stands.printed.trans printed)
  obtain ⟨tok, gs, rfl, shows, last⟩ := List.map_eq_cons_iff.mp second
  refine ⟨fs, tok, gs, rfl, first, kind_of_glyph shows, last, ?_⟩
  simpa using stands.faces

/-- After an operand was read, the next one stands behind the sign that is passed. -/
theorem Read.passSign {tok : Token} {gs : List Token} {n : Handle}
    {r' : Reader} {count : Nat} {t : Arena} {x : Rose}
    (read : a.Read count (tok :: (gs ++ next :: more)) r c rest n r' (c.withTree t))
    (free : r.watch = unwatched) (printed : gs.map Token.glyph = b.print least)
    (names : ∀ v ∈ b.names, c.session.NamesInt v) (carries : t.Carries (x :: rest))
    (trail : List (Rule × Nat)) : b.Stands least gs (next :: more)
    ({ r' with trail } : Reader).advanced (c.withTree t) (x :: rest) ∧
    r.Passes ({ r' with trail } : Reader).advanced (count + 1) := by
  have faces : ({ r' with trail } : Reader).Faces (tok :: (gs ++ next :: more)) := read.2.1
  obtain ⟨faces, passes⟩ := faces.advanced (by simp)
  have passes : r'.Passes ({ r' with trail } : Reader).advanced 1 := passes
  exact ⟨⟨passes.2.2.2.trans (read.1.2.2.2.trans free), faces, printed,
    fun v mem => namesInt_withTree (names v mem), carries⟩, read.1.trans passes⟩

theorem leads_binary {sign : BinarySign} {low : Nat}
    (left : a.LeadsBy sign.level unaryExpression (fun depth => binaryTail depth low) 4)
    (right : b.LeadsBy (sign.level + 1) unaryExpression (fun depth =>
      binaryTail depth (sign.level + 1)) 4) (le : low ≤ sign.level) (high : least ≤ sign.level) :
    (binary sign a b).LeadsBy least unaryExpression (fun depth => binaryTail depth low) 4 := by
  intro depth r c front next more rest Q stands follow deep blind goes
  obtain ⟨fs, tok, gs, rfl, first, sign', second, faces⟩ :=
    stands.split (print_of_le (e := binary sign a b) high)
  have names := stands.names
  simp only [Formula.names, List.mem_append, List.length_append, List.length_cons]
    at names deep goes
  have stands₁ : a.Stands sign.level fs (tok :: (gs ++ next :: more)) r c rest :=
    ⟨stands.watch, faces, first, fun v mem => names v (.inl mem), stands.carries⟩
  refine left stands₁ (sign' ▸ mayFollow_binary sign) (by omega) blind ?_
  intro n r' c' depth' enough read
  obtain ⟨t, x, rfl, rfl, carries, keeps, draws⟩ := read.2.2
  obtain ⟨depth', rfl⟩ := Nat.exists_eq_add_of_le' (show 1 ≤ depth' by omega)
  have free : r'.watch = unwatched := read.1.2.2.2.trans stands.watch
  have here : r'.current = tok := read.2.1.here
  have found : binaryOp? r'.current.kind = some (sign.op, sign.level) := by
    rw [here, sign']
    exact sign.listed
  show Reads _ (binaryTail (depth' + 1) low _) _ _ _
  rw [binaryTail]
  refine reads_inside free blind (reads_current ?_)
  simp only [found]
  rw [if_neg (by omega)]
  refine reads_advance_to ?_
  obtain ⟨stands', passes⟩ := read.passSign stands.watch second (fun v mem =>
    names v (.inr mem)) carries ((.binaryTail, r'.pos) :: r'.trail)
  have stops (op : BinaryOp) (level : Nat) (other : binaryOp? next.kind = some (op, level)) :
    level < sign.level + 1 :=
    (follow.binary op level other).trans_le (by omega)
  have deep' : 8 * gs.length + 5 ≤ depth' := by omega
  refine (right.binaryExpression stands' (follow.mono (by omega)) stops deep').bind
    fun m r'' c'' read' => ?_
  refine reads_check (pair_gains (Checker.binary sign.op · · _) binary_gains keeps draws read'.2.2)
    fun m c'' gains => ?_
  refine goes m r'' c'' depth' (by omega) ⟨?_, read'.2.1, gains⟩
  have whole := passes.trans read'.1
  rwa [show fs.length + (gs.length + 1) = fs.length + 1 + gs.length by omega]

/-! ### Conditional expressions -/

/-- A formula that is no conditional expression is read as the test of one. -/
theorem reads_conditional_of_binary
    (leads : e.LeadsBy 3 unaryExpression (fun depth => binaryTail depth 0) 4)
    (same : e.print 2 = e.print 3) : e.ReadsBy 2 conditionalExpression 6 := by
  intro depth r c front next more rest stands follow deep
  obtain ⟨depth, rfl⟩ := Nat.exists_eq_add_of_le' (show 1 ≤ depth by omega)
  rw [conditionalExpression]
  refine reads_inside stands.watch (read_blind e _ _ r c rest) ?_
  have stops (op : BinaryOp) (level : Nat) (found : binaryOp? next.kind = some (op, level)) :
    level < 0 := by
    have := follow.binary op level found
    have := (binaryOp_level found).1
    omega
  have deep' : 8 * front.length + 5 ≤ depth := by omega
  refine (leads.binaryExpression ((stands.inside _).cast same)
    (follow.mono (by omega)) stops deep').bind fun n r' c' read => ?_
  obtain rfl := read.2.1.here
  exact reads_current (reads_accept_other (follow.question (le_refl 2)) (reads_pure read))

theorem reads_conditional {t y n : Formula}
    (test : t.LeadsBy 3 unaryExpression (fun depth => binaryTail depth 0) 4)
    (yes : y.ReadsBy 0 Grammar.expression 8) (no : n.ReadsBy 2 conditionalExpression 6) :
    (conditional t y n).ReadsBy 2 conditionalExpression 6 := by
  intro depth r c front next more rest stands follow deep
  obtain ⟨fs, tok, others, rfl, first, mark, printed, faces⟩ :=
    stands.split (print_of_le (e := conditional t y n) (le_refl 2))
  obtain ⟨gs, tok', hs, rfl, second, colon, third⟩ : ∃ gs tok' hs, others = gs ++ tok' :: hs ∧
      gs.map Token.glyph = y.print 0 ∧ tok'.kind = .colon ∧ hs.map Token.glyph = n.print 2 := by
    obtain ⟨gs, _, rfl, second, others⟩ := List.map_eq_append_iff.mp printed
    obtain ⟨tok', hs, rfl, shows, third⟩ := List.map_eq_cons_iff.mp others
    exact ⟨gs, tok', hs, rfl, second, kind_of_glyph shows, third⟩
  have names := stands.names
  simp only [Formula.names, List.mem_append, List.length_append, List.length_cons] at names deep ⊢
  obtain ⟨depth, rfl⟩ := Nat.exists_eq_add_of_le' (show 1 ≤ depth by omega)
  rw [conditionalExpression]
  refine reads_inside stands.watch (read_blind _ _ _ r c rest) ?_
  have deepT : 8 * fs.length + 5 ≤ depth := by omega
  have stands₁ : t.Stands 3 fs (tok :: (gs ++ tok' :: (hs ++ next :: more))) r c rest :=
    ⟨stands.watch, by simpa using faces, first, fun v mem => names v (.inl (.inl mem)),
      stands.carries⟩
  have follow₁ : MayFollow 3 tok.kind := mark ▸ mayFollow_question
  refine (test.binaryExpression (stands₁.inside _) (follow₁.mono (by omega))
    (by rw [mark]; simp [binaryOp?]) deepT).bind fun n₁ r₁ c₁ read₁ => ?_
  obtain ⟨t₁, x, rfl, rfl, carries₁, keeps₁, draws₁⟩ := read₁.2.2
  have here : r₁.current = tok := read₁.2.1.here
  refine reads_current (reads_accept_found (by rw [here, mark]) ?_)
  obtain ⟨stands₂, passes₁⟩ :=
    read₁.passSign stands.watch second (fun v mem => names v (.inl (.inr mem))) carries₁ r₁.trail
  have deepY : 8 * gs.length + 8 ≤ depth := by omega
  refine (yes stands₂ (colon ▸ mayFollow_colon) deepY).bind fun n₂ r₂ c₂ read₂ => ?_
  obtain ⟨t₂, y', rfl, rfl, carries₂, keeps₂, draws₂⟩ := read₂.2.2
  have here₂ : r₂.current = tok' := read₂.2.1.here
  refine reads_want_found (by rw [here₂, colon]) ?_
  have names₃ (v : Int) (mem : v ∈ n.names) : (c.withTree t₁).session.NamesInt v :=
    namesInt_withTree (names v (.inr mem))
  obtain ⟨stands₃, passes₂⟩ := read₂.passSign stands₂.watch third names₃ carries₂ r₂.trail
  have deepN : 8 * hs.length + 6 ≤ depth := by omega
  refine (no stands₃ follow deepN).bind fun n₃ r₃ c₃ read₃ => reads_lift ?_
  refine (triple_gains keeps₁ draws₁ keeps₂ (draws_withTree.mp draws₂) read₃.2.2).mono
    fun m c' gains => ⟨?_, read₃.2.1, gains⟩
  have whole := (passes₁.trans passes₂).trans read₃.1
  rwa [show fs.length + 1 + (gs.length + 1) + hs.length = fs.length +
    (gs.length + (hs.length + 1) + 1) by omega] at whole

/-! ### Assignments -/

theorem reads_assignment_of_conditional (reads : e.ReadsBy 2 conditionalExpression 6)
    (same : e.print 1 = e.print 2) : e.ReadsBy 1 assignmentExpression 7 := by
  intro depth r c front next more rest stands follow deep
  obtain ⟨depth, rfl⟩ := Nat.exists_eq_add_of_le' (show 1 ≤ depth by omega)
  rw [assignmentExpression]
  refine reads_inside stands.watch (read_blind e _ _ r c rest) ?_
  have deep' : 8 * front.length + 6 ≤ depth := by omega
  refine (reads ((stands.inside _).cast same) (follow.mono (by omega)) deep').bind
    fun n r' c' read => reads_current ?_
  obtain rfl := read.2.1.here
  rw [follow.assign (le_refl 1)]
  exact reads_pure read

theorem reads_assignment {sign : StoreSign} {v : Int}
    (target : (name v).ReadsBy 2 conditionalExpression 6)
    (value : b.ReadsBy 1 assignmentExpression 7) :
    (store sign v b).ReadsBy 1 assignmentExpression 7 := by
  intro depth r c front next more rest stands follow deep
  have printed : (store sign v b).print 1 = [.name v] ++ .sign sign.kind :: b.print 1 :=
    print_of_le (e := store sign v b) (le_refl 1)
  obtain ⟨fs, tok, gs, rfl, first, mark, second, faces⟩ := stands.split printed
  have names := stands.names
  simp only [Formula.names, List.mem_cons, List.length_append, List.length_cons] at names deep ⊢
  obtain ⟨depth, rfl⟩ := Nat.exists_eq_add_of_le' (show 1 ≤ depth by omega)
  rw [assignmentExpression]
  refine reads_inside stands.watch (read_blind _ _ _ r c rest) ?_
  have deepT : 8 * fs.length + 6 ≤ depth := by omega
  have stands₁ : (name v).Stands 2 fs (tok :: (gs ++ next :: more)) r c rest :=
    ⟨stands.watch, faces, first, fun w mem => names w (.inl (List.mem_singleton.mp mem)),
      stands.carries⟩
  refine (target (stands₁.inside _) (mark ▸ mayFollow_store sign) deepT).bind fun n₁ r₁ c₁ read₁ =>
    reads_current ?_
  obtain ⟨t, x, rfl, rfl, carries, keeps, draws⟩ := read₁.2.2
  have here : r₁.current = tok := read₁.2.1.here
  have found : assignOp? r₁.current.kind = some sign.op := by rw [here, mark]; exact sign.listed
  simp only [found]
  refine reads_advance_to ?_
  obtain ⟨stands₂, passes⟩ :=
    read₁.passSign stands.watch second (fun w mem => names w (.inr mem)) carries r₁.trail
  have deepV : 8 * gs.length + 7 ≤ depth := by omega
  refine (value stands₂ follow deepV).bind fun n₂ r₂ c₂ read₂ => reads_lift ?_
  refine (pair_gains (Checker.binary sign.op · · _) store_gains keeps draws read₂.2.2).mono
    fun m c' gains => ⟨?_, read₂.2.1, gains⟩
  have whole := passes.trans read₂.1
  rwa [show fs.length + (gs.length + 1) = fs.length + 1 + gs.length by omega]

/-! ### Commas -/

theorem leads_comma (left : a.LeadsBy 0 assignmentExpression expressionTail 7)
    (right : b.ReadsBy 1 assignmentExpression 7) :
    (comma a b).LeadsBy 0 assignmentExpression expressionTail 7 := by
  intro depth r c front next more rest Q stands follow deep blind goes
  obtain ⟨fs, tok, gs, rfl, first, mark, second, faces⟩ :=
    stands.split (print_of_le (e := comma a b) (le_refl 0))
  have names := stands.names
  simp only [Formula.names, List.mem_append, List.length_append, List.length_cons]
    at names deep goes
  have stands₁ : a.Stands 0 fs (tok :: (gs ++ next :: more)) r c rest :=
    ⟨stands.watch, faces, first, fun v mem => names v (.inl mem), stands.carries⟩
  refine left stands₁ (mark ▸ mayFollow_comma) (by omega) blind ?_
  intro n r' c' depth' enough read
  obtain ⟨t, x, rfl, rfl, carries, keeps, draws⟩ := read.2.2
  obtain ⟨depth', rfl⟩ := Nat.exists_eq_add_of_le' (show 1 ≤ depth' by omega)
  have free : r'.watch = unwatched := read.1.2.2.2.trans stands.watch
  have here : r'.current = tok := read.2.1.here
  rw [expressionTail]
  refine reads_inside free blind (reads_current (reads_accept_found (by rw [← mark, ← here]) ?_))
  obtain ⟨stands', passes⟩ := read.passSign stands.watch second (fun v mem =>
    names v (.inr mem)) carries ((.expressionTail, r'.pos) :: r'.trail)
  have deep' : 8 * gs.length + 7 ≤ depth' := by omega
  refine (right stands' follow deep').bind fun m r'' c'' read' => ?_
  refine reads_check (pair_gains (Checker.binary .comma · · _) comma_gains keeps draws read'.2.2)
    fun m c'' gains => ?_
  refine goes m r'' c'' depth' (by omega) ⟨?_, read'.2.1, gains⟩
  have whole := passes.trans read'.1
  rwa [show fs.length + (gs.length + 1) = fs.length + 1 + gs.length by omega]

/-- A formula is read up to its end. -/
theorem LeadsBy.expression (leads : e.LeadsBy 0 assignmentExpression expressionTail 7) :
    e.ReadsBy 0 Grammar.expression 8 := by
  intro depth r c front next more rest stands follow deep
  obtain ⟨depth, rfl⟩ := Nat.exists_eq_add_of_le' (show 1 ≤ depth by omega)
  rw [Grammar.expression]
  refine reads_inside stands.watch (read_blind e _ _ r c rest) ?_
  refine leads (stands.inside _) (follow.mono (by omega)) (by omega)
    (read_blind e _ _ r c rest) fun n r' c' depth' left read => ?_
  obtain ⟨depth', rfl⟩ := Nat.exists_eq_add_of_le' (show 1 ≤ depth' by omega)
  obtain rfl := read.2.1.here
  rw [expressionTail]
  refine reads_inside (read.1.2.2.2.trans stands.watch) (read_blind e _ _ r c rest)
    (reads_current ?_)
  exact reads_accept_other (follow.comma rfl) (reads_pure read)

/-! ### Operands -/

/-- Nothing goes on with an operand. -/
theorem postfixTail_stops {n : Handle}
    {Q : Handle → Reader → Checker → Prop} (free : r.watch = unwatched)
    (faces : r.Faces (next :: more)) (deep : 0 < depth) (follow : MayFollow 14 next.kind)
    (blind : ∀ n r c trail, Q n r c → Q n { r with trail } c) (known : Q n r c) :
    Reads (fun _ => False) (postfixTail depth n) r c Q := by
  obtain ⟨depth, rfl⟩ := Nat.exists_eq_succ_of_ne_zero deep.ne'
  obtain rfl := faces.here
  have apart := follow.apart
  rw [postfixTail]
  refine reads_inside free blind (reads_current ?_)
  have known := blind n r c ((.postfixTail, r.pos) :: r.trail) known
  dsimp only
  split
  iterate 5 next found => simp [found] at apart
  next => exact reads_pure known

/-- An operand without a sign in front of it. -/
theorem reads_unary_of_primary (reads : e.ReadsBy 14 primaryExpression 1)
    (starts : ∀ tok toks, (tok :: toks).map Token.glyph = e.print 14 → unaryOp? tok.kind = none ∧
      tok.kind ≠ .plus) (some : e.print 14 ≠ []) : e.ReadsBy 14 unaryExpression 4 := by
  intro depth r c front next more rest stands follow deep
  obtain ⟨depth, rfl⟩ := Nat.exists_eq_add_of_le' (show 2 ≤ depth by omega)
  obtain ⟨tok, toks, rfl⟩ :=
    List.exists_cons_of_ne_nil (show front ≠ [] by rintro rfl; exact some stands.printed.symm)
  obtain ⟨plain, other⟩ := starts tok toks stands.printed
  obtain rfl := stands.faces.here
  rw [unaryExpression]
  refine reads_inside stands.watch (read_blind e _ _ r c rest) (reads_current ?_)
  simp only [plain]
  refine reads_accept_other other ?_
  show Reads _ (postfixExpression (depth + 1)) _ _ _
  rw [postfixExpression]
  refine reads_inside stands.watch (read_blind e _ _ r c rest) ?_
  refine (reads ((stands.inside _).inside _) follow (by omega)).bind fun n r' c' read => ?_
  exact postfixTail_stops (read.1.2.2.2.trans stands.watch) read.2.1 (by omega) follow
    (read_blind e _ _ r c rest) read

theorem reads_name (v : Int) : (name v).ReadsBy 14 primaryExpression 1 := by
  intro depth r c front next more rest stands follow deep
  obtain ⟨depth, rfl⟩ := Nat.exists_eq_add_of_le' (show 1 ≤ depth by omega)
  obtain ⟨tok, rfl, shows⟩ := List.map_eq_singleton_iff.mp stands.printed
  obtain ⟨isName, spelling⟩ : tok.kind = .identifier ∧ tok.spelling = v := by
    unfold Token.glyph at shows
    split at shows
    next same => exact ⟨same, Glyph.name.inj shows⟩
    next => cases shows
  obtain rfl := stands.faces.here
  rw [primaryExpression]
  refine reads_inside stands.watch (read_blind _ _ _ r c rest) (reads_current ?_)
  obtain ⟨faces, passes⟩ :=
    (stands.inside ((.primaryExpression, r.pos) :: r.trail)).faces.advanced (by simp)
  have apart : next.kind ≠ .leftParen := fun same => follow.apart (by simp [same])
  simp only [isName]
  refine reads_advance_to (reads_is ?_)
  rw [faces.here, beq_eq_false_iff_ne.mpr apart]
  simp only [Bool.not_false, if_true]
  rw [spelling]
  refine reads_check (identifier_gains stands.carries (stands.names v List.mem_cons_self))
    fun n c' gains => reads_lift ?_
  obtain ⟨t, x, rfl, rfl, carries, keeps, draws⟩ := gains
  exact .run (value_run (c := c.withTree t) carries draws.type) ⟨passes, faces, t, x, rfl, rfl,
    carries, keeps, draws⟩

/-- A formula in parentheses. -/
theorem reads_enclosed (reads : e.ReadsBy 0 Grammar.expression 8) (low : e.level < 14) :
    e.ReadsBy 14 primaryExpression 1 := by
  intro depth r c front next more rest stands follow deep
  obtain ⟨depth, rfl⟩ := Nat.exists_eq_add_of_le' (show 1 ≤ depth by omega)
  have printed : e.print 14 = [] ++ .sign .leftParen :: (e.print 0 ++ [.sign .rightParen]) := by
    rw [print_of_lt low, print_of_le (Nat.zero_le _)]
    rfl
  obtain ⟨fs, tok, others, rfl, first, mark, inner, faces⟩ := stands.split printed
  obtain rfl := List.map_eq_nil_iff.mp first
  obtain ⟨gs, _, rfl, second, last⟩ := List.map_eq_append_iff.mp inner
  obtain ⟨close, rfl, shows⟩ := List.map_eq_singleton_iff.mp last
  have closing := kind_of_glyph shows
  obtain rfl := faces.here
  simp only [List.nil_append, List.length_append, List.length_cons, List.length_nil] at deep ⊢
  rw [primaryExpression]
  refine reads_inside stands.watch (read_blind e _ _ r c rest) (reads_current ?_)
  obtain ⟨ahead, passes⟩ :=
    (stands.inside ((.primaryExpression, r.pos) :: r.trail)).faces.advanced (by simp)
  simp only [mark]
  refine reads_advance_to ?_
  have stands₁ : e.Stands 0 gs (close :: next :: more)
    ({ r with trail := (.primaryExpression, r.pos) :: r.trail } : Reader).advanced c rest :=
    ⟨passes.2.2.2.trans stands.watch, by simpa using ahead, second, stands.names, stands.carries⟩
  have deep' : 8 * gs.length + 8 ≤ depth := by omega
  refine (reads stands₁ (closing ▸ mayFollow_closing) deep').bind fun n r' c' read => ?_
  have here : r'.current = close := read.2.1.here
  obtain ⟨behind, passes'⟩ := read.2.1.advanced (by simp)
  refine reads_want_found (by rw [here, closing]) (reads_pure ⟨?_, behind, read.2.2⟩)
  have whole := (passes.trans read.1).trans passes'
  rwa [show 1 + gs.length + 1 = gs.length + (0 + 1) + 1 by omega] at whole

theorem reads_unary {sign : UnarySign} (reads : a.ReadsBy 14 unaryExpression 4) :
    (unary sign a).ReadsBy 14 unaryExpression 4 := by
  intro depth r c front next more rest stands follow deep
  obtain ⟨depth, rfl⟩ := Nat.exists_eq_add_of_le' (show 1 ≤ depth by omega)
  have printed : (unary sign a).print 14 = [] ++ .sign sign.kind :: a.print 14 :=
    print_of_le (e := unary sign a) (le_refl 14)
  obtain ⟨fs, tok, gs, rfl, first, mark, second, faces⟩ := stands.split printed
  obtain rfl := List.map_eq_nil_iff.mp first
  obtain rfl := faces.here
  simp only [List.nil_append, List.length_cons] at deep ⊢
  have found : unaryOp? r.current.kind = some sign.op := by rw [mark]; exact sign.listed
  rw [unaryExpression]
  refine reads_inside stands.watch (read_blind _ _ _ r c rest) (reads_current ?_)
  obtain ⟨ahead, passes⟩ :=
    (stands.inside ((.unaryExpression, r.pos) :: r.trail)).faces.advanced (by simp)
  simp only [found]
  refine reads_advance_to ?_
  have stands₁ : a.Stands 14 gs (next :: more)
    ({ r with trail := (.unaryExpression, r.pos) :: r.trail } : Reader).advanced c rest :=
    ⟨passes.2.2.2.trans stands.watch, ahead, second, stands.names, stands.carries⟩
  have deep' : 8 * gs.length + 4 ≤ depth := by omega
  refine (reads stands₁ follow deep').bind fun n r' c' read => reads_lift ?_
  obtain ⟨t, x, rfl, rfl, carries, keeps, draws⟩ := read.2.2
  refine (unary_gains (c := c.withTree t) carries (draws_withTree.mpr draws)).mono fun m c' gains =>
    ⟨?_, read.2.1, gains.after keeps⟩
  have whole := passes.trans read.1
  rwa [Nat.add_comm] at whole

/-! ### All levels -/

/-- A formula is read at every level. -/
structure Readable (e : Formula) : Prop where
  unary : e.ReadsBy 14 unaryExpression 4
  binary : ∀ least low, low ≤ least → 3 ≤ least → least ≤ 14 →
    e.LeadsBy least unaryExpression (fun depth => binaryTail depth low) 4
  conditional : e.ReadsBy 2 conditionalExpression 6
  assignment : e.ReadsBy 1 assignmentExpression 7
  comma : e.LeadsBy 0 assignmentExpression expressionTail 7

/-- A formula that is an operand at a level is one at the highest level. -/
theorem print_of_operand {high : Nat} (le : least ≤ high)
    (operand : e.level < least ∨ high ≤ e.level) : e.print least = e.print high := by
  rcases operand with low | above
  · rw [print_of_lt low, print_of_lt (low.trans_le le)]
  · rw [print_of_le (le.trans above), print_of_le above]

theorem leads_operand (low : Nat) (unary : e.ReadsBy 14 unaryExpression 4)
    (le : least ≤ 14) (operand : e.level < least ∨ 14 ≤ e.level) :
    e.LeadsBy least unaryExpression (fun depth => binaryTail depth low) 4 :=
  unary.leads (print_of_operand le operand) fun _ follow => follow.operand

theorem leads_assignment (assignment : e.ReadsBy 1 assignmentExpression 7) (operand : 1 ≤ e.level) :
    e.LeadsBy 0 assignmentExpression expressionTail 7 :=
  assignment.leads (print_of_operand (Nat.zero_le _) (.inr operand)) fun _ follow => follow

/-- Parentheses make an operand of every formula. -/
theorem reads_unary_of_comma (comma : e.LeadsBy 0 assignmentExpression expressionTail 7)
    (low : e.level < 14) : e.ReadsBy 14 unaryExpression 4 := by
  have printed := print_of_lt low
  refine reads_unary_of_primary (reads_enclosed comma.expression low) (fun tok toks shows => ?_)
    (by simp [printed])
  rw [printed, List.map_cons] at shows
  have kind := kind_of_glyph (List.cons.inj shows).1
  rw [kind]
  decide

/-- A formula that binds no closer than an assignment is read at every level if it is read at its
own one. -/
theorem readable_of_comma (comma : e.LeadsBy 0 assignmentExpression expressionTail 7)
    (low : e.level < 3) (conditional : e.level = 2 → e.ReadsBy 2 conditionalExpression 6)
    (assignment : e.level = 1 → e.ReadsBy 1 assignmentExpression 7) : e.Readable := by
  have unary := reads_unary_of_comma comma (by omega)
  have binary (least low : Nat) (above : 3 ≤ least) (le : least ≤ 14) :=
    leads_operand low unary le (.inl (by omega))
  have conditional : e.ReadsBy 2 conditionalExpression 6 := by
    by_cases own : e.level = 2
    · exact conditional own
    · exact reads_conditional_of_binary (binary 3 0 (le_refl 3) (by omega))
        (print_of_operand (by omega) (.inl (by omega)))
  have assignment : e.ReadsBy 1 assignmentExpression 7 := by
    by_cases own : e.level = 1
    · exact assignment own
    · exact reads_assignment_of_conditional conditional (print_of_operand (by omega) (by omega))
  exact ⟨unary, fun least low _ => binary least low, conditional, assignment, comma⟩

/-- A formula that binds closer than a conditional expression is read at every level if it is read
by the loop over binary operators. -/
theorem readable_of_binary (high : 3 ≤ e.level) (own : ∀ least low, low ≤ least → least ≤ e.level →
      least ≤ 14 → e.LeadsBy least unaryExpression (fun depth => binaryTail depth low) 4)
    (unary : 14 ≤ e.level → e.ReadsBy 14 unaryExpression 4) : e.Readable := by
  have conditional := reads_conditional_of_binary (own 3 0 (by omega) high (by omega))
    (print_of_operand (by omega) (.inr high))
  have assignment :=
    reads_assignment_of_conditional conditional (print_of_operand (by omega) (.inr (by omega)))
  have comma := leads_assignment assignment (by omega)
  have unary : e.ReadsBy 14 unaryExpression 4 := by
    by_cases operand : 14 ≤ e.level
    · exact unary operand
    · exact reads_unary_of_comma comma (by omega)
  refine ⟨unary, fun least low le above small => ?_, conditional, assignment, comma⟩
  by_cases inside : least ≤ e.level
  · exact own least low le inside small
  · exact leads_operand low unary small (.inl (by omega))

theorem readable_name (v : Int) : (name v).Readable := by
  have unary : (name v).ReadsBy 14 unaryExpression 4 := by
    refine reads_unary_of_primary (reads_name v) (fun tok toks shows => ?_)
      (by simp [print, enclose, bare, level])
    obtain ⟨shown, -⟩ := List.cons.inj shows
    unfold Token.glyph at shown
    split at shown
    next same => rw [same]; decide
    next => cases shown
  exact readable_of_binary (by simp [level]) (fun least low _ _ small =>
    leads_operand low unary small (.inr (by simp [level]))) fun _ => unary

theorem readable (e : Formula) : e.Readable := by
  induction e with
  | name v => exact readable_name v
  | unary sign e ih =>
    have unary : (Formula.unary sign e).ReadsBy 14 unaryExpression 4 := reads_unary ih.unary
    have operand : 14 ≤ (Formula.unary sign e).level := le_refl 14
    refine readable_of_binary (by simp [level]) ?own fun _ => unary
    case own => exact fun least low _ _ small => leads_operand low unary small (.inr operand)
  | binary sign l r left right =>
    obtain ⟨above, below⟩ := binaryOp_level sign.listed
    have high : 3 ≤ (Formula.binary sign l r).level := by
      simp only [level]
      omega
    refine readable_of_binary high ?own ?operand
    case own =>
      intro least low le inside _
      simp only [level] at inside
      exact leads_binary (left.binary _ low (by omega) (by omega) (by omega))
        (right.binary _ _ (le_refl _) (by omega) (by omega)) (by omega) inside
    case operand =>
      intro operand
      simp only [level] at operand
      omega
  | conditional t y n test yes no =>
    have conditional := reads_conditional
      (test.binary 3 0 (by omega) (le_refl 3) (by omega)) yes.comma.expression no.conditional
    have assignment := reads_assignment_of_conditional conditional
      (print_of_operand (by omega) (.inr (by simp [level])))
    exact readable_of_comma (leads_assignment assignment (by simp [level])) (by simp [level])
      (fun _ => conditional) fun _ => assignment
  | store sign v e ih =>
    have assignment : (Formula.store sign v e).ReadsBy 1 assignmentExpression 7 :=
      reads_assignment (readable_name v).conditional ih.assignment
    exact readable_of_comma (leads_assignment assignment (by simp [level])) (by simp [level])
      (by simp [level]) fun _ => assignment
  | comma l r left right =>
    exact readable_of_comma (leads_comma left.comma right.assignment) (by simp [level])
      (by simp [level]) (by simp [level])

/-- **Reading inverts printing.** From the tokens that a formula over integer variables was printed
with, in front of a token that does not go on with an expression, the reader makes a tree with the
operators and operands of the formula in their order. It passes exactly these tokens. Beyond the new
tree nothing changes: the trees that wait under the root stay, and nothing is reported. -/
theorem reads_print (e : Formula) (free : r.watch = unwatched)
    (faces : r.Faces (front ++ next :: more)) (printed : front.map Token.glyph = e.print 0)
    (follow : MayFollow 0 next.kind) (names : ∀ v ∈ e.names, c.session.NamesInt v)
    (carries : c.session.tree.Carries rest) (deep : depthBound r ≤ depth) :
    ∃ r' t x, Grammar.expression depth r c = .ok ((t.handle x.index, r'), c.withTree t) ∧
    e.Pictures c.session x ∧ r'.tokens = r.tokens ∧ r'.pos = r.pos + front.length ∧
    r'.current = next ∧ r'.recovering = r.recovering ∧
    t.Carries (x :: rest) ∧ c.session.tree.Keeps t rest := by
  have stands : e.Stands 0 front (next :: more) r c rest := ⟨free, faces, printed, names, carries⟩
  have length : front.length ≤ r.tokens.size := by
    have whole := congrArg List.length faces.1
    simp only [List.length_drop, Array.length_toList, List.length_append] at whole
    omega
  have enough : 8 * front.length + 8 ≤ depth := by
    simp only [depthBound] at deep
    omega
  obtain ⟨⟨⟨n, r'⟩, c'⟩, run, ⟨tokens, pos, recovering, -⟩, ahead, t, x, same, rfl, holds,
    keeps, draws⟩ :=
    (e.readable.comma.expression stands follow enough).answer
  obtain rfl : c' = c.withTree t := same
  exact ⟨r', t, x, run, draws.pictures, tokens, pos, ahead.here, recovering, holds, keeps⟩

/-- A checker that knows the integer variables `a` and `b`. -/
def twoVariables : Checker where
  session := { Session.new Kind.unit.number (.new none true) with
    spellings := ⟨#[⟨"", 0, 0⟩, ⟨"a", 1, 0⟩, ⟨"b", 2, 0⟩], Array.replicate Spellings.chainCount 0⟩
    identifiers :=
      #[.none, ⟨0, 1, TypeId.int, .variable, 3, true⟩, ⟨0, 2, TypeId.int, .variable, 4, true⟩] }
  stringType := TypeId.undefined
  functionPlaces := []
  function := 0
  resultType := TypeId.undefined
  labels := none
  loops := 0
  switches := 0

/-- `a = b - (a - b) * -a` -/
def difference : Formula :=
  .store ⟨.assign, .assign, rfl⟩ 1 (.binary ⟨.minus, .sub, 12, rfl⟩ (.name 2)
    (.binary ⟨.star, .mul, 13, rfl⟩ (.binary ⟨.minus, .sub, 12, rfl⟩ (.name 1) (.name 2))
    (.unary ⟨.minus, .minus, rfl, rfl⟩ (.name 1))))

/-- The tokens of `difference`, each one behind the other. -/
def differenceTokens : List Token :=
  let name (v : Int) (i : Int) : Token := { Token.bare .identifier ⟨i, i + 1⟩ with spelling := v }
  let sign (kind : TokenKind) (i : Int) : Token := .bare kind ⟨i, i + 1⟩
  [name 1 0, sign .assign 1, name 2 2, sign .minus 3, sign .leftParen 4, name 1 5, sign .minus 6,
    name 2 7, sign .rightParen 8, sign .star 9, sign .minus 10, name 1 11]

theorem reads_print_difference :
    let r := reader (differenceTokens ++ [.bare .endOfInput ⟨12, 12⟩]) unwatched
    (differenceTokens.map Token.glyph = difference.print 0 ∧ MayFollow 0 .endOfInput ∧
      (∀ v ∈ difference.names, twoVariables.session.NamesInt v) ∧
      twoVariables.session.tree.Carries []) ∧ ∃ r' t x, Grammar.expression
      (depthBound r) r twoVariables = .ok ((t.handle x.index, r'), twoVariables.withTree t) ∧
      difference.Pictures twoVariables.session x ∧ r'.tokens = r.tokens ∧ r'.pos = r.pos + 12 ∧
      r'.current = .bare .endOfInput ⟨12, 12⟩ ∧ r'.recovering = r.recovering ∧ t.Carries [x] ∧
      twoVariables.session.tree.Keeps t [] := by
  have printed : differenceTokens.map Token.glyph = difference.print 0 := by decide
  have follow : MayFollow 0 .endOfInput :=
    ⟨by decide, by simp [binaryOp?], by simp, fun _ => rfl, by simp⟩
  have names : ∀ v ∈ difference.names, twoVariables.session.NamesInt v := by
    have one : twoVariables.session.NamesInt 1 := ⟨by decide, by decide, by decide⟩
    have two : twoVariables.session.NamesInt 2 := ⟨by decide, by decide, by decide⟩
    simp only [difference, Formula.names, List.cons_append, List.nil_append, List.forall_mem_cons]
    exact ⟨one, two, one, two, one, by simp⟩
  have carries : twoVariables.session.tree.Carries [] := (Arena.holds_new _).carries
  exact ⟨⟨printed, follow, names, carries⟩,
    reads_print difference rfl ⟨rfl, rfl⟩ printed follow names carries (le_refl _)⟩

end Formula

end BilingualC
