import Mathlib
import BilingualC.Proofs.Checker.Program
import BilingualC.Proofs.Lowering.Closed

/-!
# Linked code

`Within` says that a piece of code stands somewhere in the layout of another one. The jumps to
labels and the labels in a piece of code are its marks, in the order of the code. Laid out code
holds its marks one after the other, each within the layout (`Lay.marked`). The labels of a program
are distinct, so after the last function each of them still has the address at which its function
placed it, and the marks of the whole memory agree with the final tables (`linked_parts`).
-/

namespace BilingualC

/-! ## Code within code -/

/-- A piece of code in its place: the exits around it, the slots that are open before and behind it,
its start and its end. -/
structure Stretch where
  exits : List Exit
  before : Option Nat
  piece : Piece
  start : Nat
  stop : Nat
  behind : Option Nat

/-- A memory holds a piece of code in its place. -/
def Stretch.StandsIn (M : List Int) (L : Links) (p : Stretch) : Prop :=
  Lay M L p.exits p.before p.piece p.start p.stop p.behind

/-- The parts of a piece of code in their places. The cells between the parts are the tests, jumps
and slots that belong to the piece itself. -/
inductive Stretch.Parts : Stretch → List Stretch → Prop
  | seq {X s s₁ s₂ c d a m b} :
      Parts ⟨X, s, .seq c d, a, b, s₂⟩ [⟨X, s, c, a, m, s₁⟩, ⟨X, s₁, d, m, b, s₂⟩]
  | choose {X s s₁ s₂ s₃ t y n a m k b} : Parts ⟨X, s, .choose t y n, a, b, s₃⟩
      [⟨X, s, t, a, m, s₁⟩, ⟨X, s₁, y, m + 2, k, s₂⟩, ⟨X, s₂, n, k + 2, b, s₃⟩]
  | only {X s s₁ s₂ t y a m b} :
      Parts ⟨X, s, .only t y, a, b, s₂⟩ [⟨X, s, t, a, m, s₁⟩, ⟨X, s₁, y, m + 2, b, s₂⟩]
  | short {X s s₁ s₂ test last l r a m n} : Parts ⟨X, s, .short test last l r, a, n + 1, s₂⟩
      [⟨X, s, l, a, m, s₁⟩, ⟨X, s₁, r, m + 3, n, s₂⟩]
  | whileLoop {X s s₁ s₂ t body a m n} : Parts ⟨X, s, .whileLoop t body, a, n + 2, s₂⟩
      [⟨⟨true, (n + 2 : Nat), a⟩ :: X, s, t, a, m, s₁⟩,
        ⟨⟨true, (n + 2 : Nat), a⟩ :: X, s₁, body, m + 2, n, s₂⟩]
  | doWhile {X s s₁ s₂ t body} {a m n : Nat} : Parts ⟨X, s, .doWhile body t, a, n + 2, s₂⟩
      [⟨⟨true, (n + 2 : Nat), m⟩ :: X, s, body, a, m, s₁⟩,
        ⟨⟨true, (n + 2 : Nat), m⟩ :: X, s₁, t, m, n, s₂⟩]
  | forLoop {X s s₁ s₂ s₃ t body step} {a m n k : Nat} : Parts ⟨X, s, .forLoop t body step, a,
        k + 2, s₃⟩ [⟨⟨true, (k + 2 : Nat), n⟩ :: X, s, t, a, m, s₁⟩, ⟨⟨true, (k + 2 : Nat), n⟩ :: X,
        s₁, body, m + 2, n, s₂⟩, ⟨⟨true, (k + 2 : Nat), n⟩ :: X, s₂, step, n, k, s₃⟩]
  | endlessLoop {X s s₁ s₂ body step} {a n k : Nat} : Parts ⟨X, s, .endlessLoop body step,
        a, k + 2, s₂⟩ [⟨⟨true, (k + 2 : Nat), n⟩ :: X, s, body, a, n, s₁⟩,
        ⟨⟨true, (k + 2 : Nat), n⟩ :: X, s₁, step, n, k, s₂⟩]
  | switch {X s s₁ v body a m} {e : Nat} : Parts ⟨X, s, .switch v body, a, e + 2, s⟩
      [⟨⟨false, e, 0⟩ :: X, none, v, a, m, none⟩, ⟨⟨false, e, 0⟩ :: X, none, body, m, e, s₁⟩]
  | caseFirst {X s₁ v body a m b} : Parts ⟨X, none, .caseLabel v body, a, b, s₁⟩
      [⟨X, none, v, a + 1, m, none⟩, ⟨X, some (m + 2), body, m + 3, b, s₁⟩]
  | caseNext {X s₁ v body p a m b} : Parts ⟨X, some p, .caseLabel v body, a, b, s₁⟩
      [⟨X, none, v, a + 3, m, none⟩, ⟨X, some (m + 2), body, m + 3, b, s₁⟩]
  | defaultLabel {X s s₁ body a b} :
      Parts ⟨X, s, .defaultLabel body, a, b, s₁⟩ [⟨X, none, body, a, b, s₁⟩]
  | label {X s s₁ id body a b} : Parts ⟨X, s, .label id body, a, b, s₁⟩ [⟨X, s, body, a, b, s₁⟩]

/-- `Within M L whole p`: the layout of the code `whole` in the memory `M` has the code `p` in
it. -/
inductive Within (M : List Int) (L : Links) (whole : Stretch) : Stretch → Prop
  | whole (stands : whole.StandsIn M L) : Within M L whole whole
  | part {p q : Stretch} {parts : List Stretch}
      (outer : Within M L whole p) (places : p.Parts parts)
      (stand : ∀ x ∈ parts, x.StandsIn M L) (mem : q ∈ parts) : Within M L whole q

/-- What is within a layout stands in the memory. -/
theorem Within.stands {M : List Int} {L : Links} {whole p : Stretch} (within : Within M L whole p) :
    p.StandsIn M L := by
  cases within with
  | whole stands => exact stands
  | part _ _ stand mem => exact stand _ mem

section Pairs

variable {M : List Int} {L : Links} {whole p c d e : Stretch}

theorem Within.one (outer : Within M L whole p) (places : p.Parts [c]) (first : c.StandsIn M L) :
    Within M L whole c :=
  .part outer places (by simpa using first) List.mem_cons_self

theorem Within.two (outer : Within M L whole p) (places : p.Parts [c, d]) (first : c.StandsIn M L)
    (second : d.StandsIn M L) : Within M L whole c ∧ Within M L whole d := by
  have stand : ∀ x ∈ [c, d], x.StandsIn M L := by simpa using ⟨first, second⟩
  exact ⟨.part outer places stand (by simp), .part outer places stand (by simp)⟩

theorem Within.three (outer : Within M L whole p) (places : p.Parts [c, d, e])
    (first : c.StandsIn M L) (second : d.StandsIn M L) (third : e.StandsIn M L) :
    Within M L whole c ∧ Within M L whole d ∧ Within M L whole e := by
  have stand : ∀ x ∈ [c, d, e], x.StandsIn M L := by simpa using ⟨first, second, third⟩
  exact ⟨.part outer places stand (by simp), .part outer places stand (by simp),
    .part outer places stand (by simp)⟩

end Pairs

/-! ## Marks -/

/-- What is linked in code: a jump to a label, or a label with the code behind it. -/
inductive Mark where
  | jump (identifier : Int)
  | label (identifier : Int) (behind : Piece)

namespace Mark

/-- The number of cells of a mark. -/
def size : Mark → Nat
  | .jump _ => 2
  | .label _ _ => 0

/-- The piece of code that starts with a mark. -/
def piece : Mark → Piece
  | .jump id => .goto id
  | .label id behind => .label id behind

def jump? : Mark → Option Int
  | .jump id => some id
  | _ => none

end Mark

namespace Piece

/-- The marks in a piece of code, in the order of the code. -/
def marks : Piece → List Mark
  | .seq c d | .only c d | .short _ _ c d | .whileLoop c d | .doWhile c d | .endlessLoop c d
  | .switch c d | .caseLabel c d => c.marks ++ d.marks
  | .choose c d e | .forLoop c d e => c.marks ++ d.marks ++ e.marks
  | .defaultLabel c => c.marks
  | .label id c => .label id c :: c.marks
  | .goto id => [.jump id]
  | _ => []

theorem jumps_marks (c : Piece) : c.marks.filterMap Mark.jump? = c.gotos := by
  induction c <;> simp_all [marks, gotos, Mark.jump?, List.filterMap_cons]

theorem marks_all (cs : List Piece) : (all cs).marks = cs.flatMap marks := by
  induction cs with
  | nil => rfl
  | cons c cs ih => rw [all, marks, ih, List.flatMap_cons]

end Piece

variable {M : List Int} {L L' : Links} {X : List Exit} {slot slot' : Option Nat} {c : Piece}
    {a m b : Nat} {whole : Stretch}

/-- A piece of code starts at an address within the layout of other code. -/
def StartsWithin (M : List Int) (L : Links) (whole : Stretch) (c : Piece) (p : Nat) : Prop :=
  ∃ X slot q slot', Within M L whole ⟨X, slot, c, p, q, slot'⟩

/-- Some marks stand one after the other between two addresses, all of them within the layout of
some code. -/
inductive Marked (M : List Int) (L : Links) (whole : Stretch) : List Mark → Nat → Nat → Prop
  | nil {a b : Nat} (le : a ≤ b) : Marked M L whole [] a b
  | cons (mark : Mark) {rest : List Mark} {a p b : Nat}
      (le : a ≤ p) (here : StartsWithin M L whole mark.piece p)
      (later : Marked M L whole rest (p + mark.size) b) : Marked M L whole (mark :: rest) a b

namespace Marked

variable {ms ns : List Mark}

theorem le (marked : Marked M L whole ms a b) : a ≤ b := by
  induction marked with
  | nil le => exact le
  | cons _ le _ _ ih => omega

theorem widen (marked : Marked M L whole ms a b) {a' b' : Nat} (low : a' ≤ a) (high : b ≤ b') :
    Marked M L whole ms a' b' := by
  induction marked generalizing a' with
  | nil le => exact .nil (by omega)
  | cons mark le here _ ih => exact .cons mark (by omega) here (ih (Nat.le_refl _) high)

/-- Marks in front of others, with other code between them. -/
theorem append {m' : Nat} (first : Marked M L whole ms a m) (gap : m ≤ m')
    (second : Marked M L whole ns m' b) : Marked M L whole (ms ++ ns) a b := by
  induction first with
  | nil le => exact second.widen (by omega) (Nat.le_refl _)
  | cons mark le here _ ih => exact .cons mark le here (ih gap)

end Marked

/-- Laid out code holds its marks in order, within the layout of whatever it is within. -/
theorem Lay.marked (lay : Lay M L X slot c a b slot')
    (inside : Within M L whole ⟨X, slot, c, a, b, slot'⟩) : Marked M L whole c.marks a b := by
  induction lay with
  | skip | plain | text | call | breaking | continuing => exact .nil (by omega)
  | goto cells => exact .cons (.jump _) (Nat.le_refl _) ⟨_, _, _, _, inside⟩ (.nil (Nat.le_refl _))
  | seq left right first second =>
    obtain ⟨front, back⟩ := inside.two .seq left right
    exact (first front).append (Nat.le_refl _) (second back)
  | choose left _ middle _ right test yes no =>
    obtain ⟨asked, taken, other⟩ := inside.three .choose left middle right
    exact ((test asked).append (by omega) (yes taken)).append (by omega) (no other)
  | only left _ right test yes =>
    obtain ⟨asked, taken⟩ := inside.two .only left right
    exact (test asked).append (by omega) (yes taken)
  | short _ _ left _ right _ first second =>
    obtain ⟨front, back⟩ := inside.two .short left right
    exact (first front).append (by omega) ((second back).widen (Nat.le_refl _) (by omega))
  | whileLoop left _ right _ test body =>
    obtain ⟨asked, done⟩ := inside.two .whileLoop left right
    exact (test asked).append (by omega) ((body done).widen (Nat.le_refl _) (by omega))
  | doWhile left right _ body test =>
    obtain ⟨done, asked⟩ := inside.two .doWhile left right
    exact (body done).append (Nat.le_refl _) ((test asked).widen (Nat.le_refl _) (by omega))
  | forLoop left _ middle right _ test body next =>
    obtain ⟨asked, done, stepped⟩ := inside.three .forLoop left middle right
    exact ((test asked).append (by omega) (body done)).append (Nat.le_refl _)
      ((next stepped).widen (Nat.le_refl _) (by omega))
  | endlessLoop left right _ body next =>
    obtain ⟨done, stepped⟩ := inside.two .endlessLoop left right
    exact (body done).append (Nat.le_refl _) ((next stepped).widen (Nat.le_refl _) (by omega))
  | switch left right _ _ value body =>
    obtain ⟨asked, done⟩ := inside.two .switch left right
    exact (value asked).append (Nat.le_refl _) ((body done).widen (Nat.le_refl _) (by omega))
  | caseFirst _ left _ right value body =>
    obtain ⟨asked, done⟩ := inside.two .caseFirst left right
    exact ((value asked).widen (by omega) (Nat.le_refl _)).append (by omega) (body done)
  | caseNext _ _ _ left _ right value body =>
    obtain ⟨asked, done⟩ := inside.two .caseNext left right
    exact ((value asked).widen (by omega) (Nat.le_refl _)).append (by omega) (body done)
  | defaultLabel _ lay body => exact body (inside.one .defaultLabel lay)
  | label _ lay body =>
    exact .cons (.label _ _) (Nat.le_refl _) ⟨_, _, _, _, inside⟩ (body (inside.one .label lay))

/-- Two links agree on the labels of a piece of code. -/
def Links.AgreeOn (L L' : Links) (c : Piece) : Prop :=
  ∀ id, id ∈ c.labels ∨ id ∈ c.gotos → L'.label id = L.label id

section AgreeOn

variable {d e f : Piece}

theorem Links.AgreeOn.two (agree : L.AgreeOn L' c) (labels : c.labels = d.labels ++ e.labels)
    (gotos : c.gotos = d.gotos ++ e.gotos) : L.AgreeOn L' d ∧ L.AgreeOn L' e := by
  simp only [AgreeOn, labels, gotos, List.mem_append] at agree ⊢
  exact ⟨fun id mem => agree id (by tauto), fun id mem => agree id (by tauto)⟩

theorem Links.AgreeOn.three (agree : L.AgreeOn L' c)
    (labels : c.labels = d.labels ++ e.labels ++ f.labels)
    (gotos : c.gotos = d.gotos ++ e.gotos ++ f.gotos) : L.AgreeOn L' d ∧ L.AgreeOn L' e ∧
    L.AgreeOn L' f := by
  simp only [AgreeOn, labels, gotos, List.mem_append] at agree ⊢
  exact ⟨fun id mem => agree id (by tauto), fun id mem => agree id (by tauto),
    fun id mem => agree id (by tauto)⟩

end AgreeOn

/-- Code is laid out by other links in the same way, as long as they agree on its labels. -/
theorem Lay.relink (lay : Lay M L X slot c a b slot') (functions : L'.function = L.function)
    (agree : L.AgreeOn L' c) : Lay M L' X slot c a b slot' := by
  induction lay with
  | skip => exact .skip
  | plain cells count plain => exact .plain cells count plain
  | text cells => exact .text cells
  | call cells => exact .call (functions ▸ cells)
  | breaking cells => exact .breaking cells
  | continuing inner loop drops cells => exact .continuing inner loop drops cells
  | goto cells => exact .goto (agree _ (.inr List.mem_cons_self) ▸ cells)
  | label here _ inside =>
    exact .label ((agree _ (.inl List.mem_cons_self)).trans here)
      (inside fun id mem => agree id (mem.imp_left (List.mem_cons_of_mem _)))
  | seq _ _ first second =>
    obtain ⟨left, right⟩ := agree.two rfl rfl
    exact .seq (first left) (second right)
  | choose _ branch _ across _ test yes no =>
    obtain ⟨left, middle, right⟩ := agree.three rfl rfl
    exact .choose (test left) branch (yes middle) across (no right)
  | only _ branch _ test yes =>
    obtain ⟨left, right⟩ := agree.two rfl rfl
    exact .only (test left) branch (yes right)
  | short kind ends _ skip _ final first second =>
    obtain ⟨left, right⟩ := agree.two rfl rfl
    exact .short kind ends (first left) skip (second right) final
  | whileLoop _ leave _ back test inside =>
    obtain ⟨left, right⟩ := agree.two rfl rfl
    exact .whileLoop (test left) leave (inside right) back
  | doWhile _ _ back inside test =>
    obtain ⟨left, right⟩ := agree.two rfl rfl
    exact .doWhile (inside left) (test right) back
  | forLoop _ leave _ _ back test inside next =>
    obtain ⟨left, middle, right⟩ := agree.three rfl rfl
    exact .forLoop (test left) leave (inside middle) (next right) back
  | endlessLoop _ _ back inside next =>
    obtain ⟨left, right⟩ := agree.two rfl rfl
    exact .endlessLoop (inside left) (next right) back
  | switch _ _ fails drop value inside =>
    obtain ⟨left, right⟩ := agree.two rfl rfl
    exact .switch (value left) (inside right) fails drop
  | caseFirst double _ test _ value inside =>
    obtain ⟨left, right⟩ := agree.two rfl rfl
    exact .caseFirst double (value left) test (inside right)
  | caseNext across fails double _ test _ value inside =>
    obtain ⟨left, right⟩ := agree.two rfl rfl
    exact .caseNext across fails double (value left) test (inside right)
  | defaultLabel fails _ inside => exact .defaultLabel fails (inside agree)

/-! ## Places of marks -/

/-- Things that take two cells each stand one after the other between two addresses. -/
def Sites {α : Type} (P : Nat → α → Prop) (things : List α) (a b : Nat) : Prop :=
  ∃ places : List Nat, places.Pairwise (fun p q => p + 2 ≤ q) ∧ (∀ p ∈ places, a ≤ p ∧ p + 2 ≤ b) ∧
    List.Forall₂ P places things

namespace Sites

variable {α β : Type} {P : Nat → α → Prop} {things : List α}

theorem nil (a b : Nat) : Sites P [] a b := ⟨[], .nil, by simp, .nil⟩

theorem widen (sites : Sites P things a b) {a' : Nat} (low : a' ≤ a) : Sites P things a' b := by
  obtain ⟨places, apart, inside, stand⟩ := sites
  exact ⟨places, apart, fun p mem => ⟨low.trans (inside p mem).1, (inside p mem).2⟩, stand⟩

theorem cons {x : α} (here : P a x) (room : a + 2 ≤ b) (later : Sites P things (a + 2) b) :
    Sites P (x :: things) a b := by
  obtain ⟨places, apart, inside, stand⟩ := later
  refine ⟨a :: places, .cons (fun q mem => (inside q mem).1) apart, ?_, .cons here stand⟩
  exact List.forall_mem_cons.mpr ⟨⟨le_refl a, room⟩,
    fun q mem => ⟨by have := inside q mem; omega, (inside q mem).2⟩⟩

/-- Places of things that stand for other things. -/
theorem of_map {Q : Nat → β → Prop} {f : β → α}
    {others : List β} (sites : Sites P (others.map f) a b)
    (meets : ∀ p, ∀ x ∈ others, P p (f x) → Q p x) : Sites Q others a b := by
  obtain ⟨places, apart, inside, stand⟩ := sites
  refine ⟨places, apart, inside, ?_⟩
  rw [List.forall₂_map_right_iff, List.forall₂_iff_get] at stand
  exact List.forall₂_iff_get.mpr ⟨stand.1, fun i low high =>
    meets _ _ (List.get_mem _ _) (stand.2 i low high)⟩

end Sites

namespace Marked

/-- The jumps in laid out code. -/
theorem jumps {ms : List Mark} (marked : Marked M L whole ms a b) :
    Sites (fun p id => StartsWithin M L whole (.goto id) p) (ms.filterMap Mark.jump?) a b := by
  induction marked with
  | nil => exact .nil _ _
  | cons mark le here later ih =>
    cases mark with
    | jump id => exact (Sites.cons here later.le ih).widen le
    | label id behind => exact ih.widen le

/-- Every mark stands somewhere. -/
theorem place {ms : List Mark} (marked : Marked M L whole ms a b) {mark : Mark} (mem : mark ∈ ms) :
    ∃ p, StartsWithin M L whole mark.piece p := by
  induction marked with
  | nil => exact absurd mem List.not_mem_nil
  | cons _ _ here _ ih =>
    rcases List.mem_cons.mp mem with rfl | inside
    · exact ⟨_, here⟩
    · exact ih inside

end Marked

/-! ## Labels of a statement -/

namespace Rose

variable {s : Session} {r y : Rose} {inLoop inSwitch : Bool}

/-- The statement behind a label. -/
def behind (y : Rose) : Rose := y.children.headD default

theorem mem_nodes_cases (mem : y ∈ r.nodes) : y = r ∨ ∃ c ∈ r.children, y ∈ c.nodes := by
  rw [nodes_eq, List.mem_cons, List.mem_flatMap] at mem
  exact mem

theorem kind_of_collect {k : Kind} (none : r.collect k = []) (mem : y ∈ r.nodes) : y.kind ≠ k :=
  fun same => by
  have named : y.arg 0 ∈ r.collect k :=
    List.mem_map.mpr ⟨y, List.mem_filter.mpr ⟨mem, by simpa using same⟩, rfl⟩
  exact absurd (none ▸ named) List.not_mem_nil

/-- The code of a statement has a mark for each label in it. -/
theorem mark_of_label (form : IsStatement inLoop inSwitch r)
    (s : Session) (mem : y ∈ r.nodes) (kind : y.kind = .label) :
    Mark.label (y.arg 0) (y.behind.toStatement s) ∈ (r.toStatement s).marks := by
  -- a label stands among statements: no expression and no declaration has one below it
  have outside {x : Rose} (expr : IsExpr x) : y ∉ x.nodes :=
    fun inside => kind_of_collect (collect_expr expr rfl) inside kind
  have declared {x : Rose} (isDeclaration : IsDeclaration x) : y ∉ x.nodes :=
    fun inside => kind_of_collect (collect_declaration isDeclaration (.inl rfl)) inside kind
  have below {x : Rose} (inside : y ∈ x.nodes) (other : x.kind ≠ .label) :
    ∃ c ∈ x.children, y ∈ c.nodes :=
    (mem_nodes_cases inside).resolve_left fun same => other (same ▸ kind)
  induction form with
  | block form _ each =>
    obtain ⟨c, child, inside⟩ := below mem (by simp [form])
    rw [toStatement_block form, Piece.marks_all, List.mem_flatMap]
    exact ⟨_, List.mem_map_of_mem child, each c child inside⟩
  | declaration isDeclaration => exact absurd mem (declared isDeclaration)
  | expr expr => exact absurd mem (outside expr)
  | ifOnly form flag kids test _ yes =>
    have part := yes (by simpa [kids, outside test] using below mem (by simp [form]))
    rw [toStatement_ifOnly form flag kids]
    exact List.mem_append_right _ part
  | @ifElse _ _ r c yesPart noPart form flag kids test _ _ yes no =>
    have part : y ∈ yesPart.nodes ∨ y ∈ noPart.nodes := by
      simpa [kids, outside test] using below mem (by simp [form])
    rw [toStatement_ifElse form flag kids]
    simp only [Piece.marks, List.mem_append]
    exact part.elim (fun inside => .inl (.inr (yes inside))) fun inside => .inr (no inside)
  | whileLoop form kids test _ body =>
    have part := body (by simpa [kids, outside test] using below mem (by simp [form]))
    rw [toStatement_whileLoop form kids]
    exact List.mem_append_right _ part
  | doWhile form kids _ test body =>
    have part := body (by simpa [kids, outside test] using below mem (by simp [form]))
    rw [toStatement_doWhile form kids]
    exact List.mem_append_left _ part
  | @forLoop _ _ r b init cond step form kids hasInit hasCond hasStep first tested next _ body =>
    obtain ⟨c, child, inside⟩ := below mem (by simp [form])
    rw [kids] at child
    simp only [List.mem_append, Option.mem_toList, List.mem_singleton] at child
    obtain ((written | test) | step) | rfl := child
    · exact (first c written).elim (fun d => absurd inside (declared d)) fun e =>
        absurd inside (outside e)
    · exact absurd inside (outside (tested c test))
    · exact absurd inside (outside (next c step))
    · have part := body inside
      rw [toStatement_forLoop form kids hasInit hasCond hasStep]
      cases cond <;> simp [loopCode, Piece.marks, part]
  | switching form kids test _ body =>
    have part := body (by simpa [kids, outside test] using below mem (by simp [form]))
    rw [toStatement_switching form kids]
    exact List.mem_append_right _ part
  | caseLabel form kids test _ body =>
    have part := body (by simpa [kids, outside test] using below mem (by simp [form]))
    rw [toStatement_caseLabel form kids]
    exact List.mem_append_right _ part
  | defaultLabel form kids _ body =>
    have part := body (by simpa [kids] using below mem (by simp [form]))
    rw [toStatement_defaultLabel form kids]
    exact part
  | label form kids _ body =>
    rw [toStatement_label form kids]
    rcases mem_nodes_cases mem with rfl | ⟨c, child, inside⟩
    · simp [Piece.marks, behind, kids]
    · obtain rfl : c = _ := by simpa [kids] using child
      exact List.mem_cons_of_mem _ (body inside)
  | null form kids | breaking form _ kids | continuing form kids | jump form kids
      | returnVoid form kids =>
    simpa [kids] using below mem (by simp [form])
  | returnValue form kids value => simpa [kids, outside value] using below mem (by simp [form])

end Rose

/-! ## Linked parts -/

/-- The links that the tables of a session hold. -/
def Session.links (t : Session) : Links := ⟨t.displacementOf, t.functionAddress⟩

/-- The statement that a jump in a tree leads to: the only labelled one with the spelling of the
jump. -/
structure Session.Targets (s : Session) (r x y : Rose) : Prop where
  mem : y ∈ r.nodes
  kind : y.kind = .label
  spelling : (s.identifier (y.arg 0)).spelling = (s.identifier (x.arg 0)).spelling
  only : ∀ z ∈ r.nodes, z.kind = .label →
    (s.identifier (z.arg 0)).spelling = (s.identifier (x.arg 0)).spelling → z = y

/-- The code of the body of a function that stands between two addresses: it lies behind the start
of the function and in front of the last return. -/
def Rose.bodyAt (s : Session) (body : Rose) (a b : Nat) : Stretch :=
  ⟨[], none, body.toStatement s, a + 3, b - 1, none⟩

/-- A function between two addresses whose jumps are linked. The final tables lay it out there. Each
label is placed within its code, with the code of the statement behind it, at the final displacement
of the label; each jump, in the order of the source, stands within the code and holds the
displacement of the label that it leads to. -/
structure LinkedFunction (M : List Int) (s t : Session) (r body : Rose) (a b : Nat) : Prop where
  code : FunctionAt M t.links s r body a b
  once : (body.collect .label).Nodup
  labels : ∀ y ∈ body.nodes, y.kind = .label → ∃ p : Nat, t.displacementOf (y.arg 0) = p ∧
    StartsWithin M t.links (body.bodyAt s a b) (.label (y.arg 0) (y.behind.toStatement s)) p
  jumps : Sites (fun p x => StartsWithin M t.links (body.bodyAt s a b) (.goto (x.arg 0)) p ∧
      ∃ y, s.Targets body x y ∧ CellsAt M p [Operation.code .branch, t.displacementOf (y.arg 0)])
    (body.nodes.filter fun x => x.kind == .jump) (a + 3) b

/-- The linked parts of a program, one after the other. -/
inductive LinkedParts (M : List Int) (s t : Session) : List Rose → Nat → Nat → Prop
  | nil {a : Nat} : LinkedParts M s t [] a a
  | declaration {r : Rose} {rest : List Rose} {a m b : Nat} (form : r.IsDeclaration)
      (code : ∃ label, Lay M ⟨label, t.functionAddress⟩ [] none (r.toStatement s) a m none)
      (later : LinkedParts M s t rest m b) : LinkedParts M s t (r :: rest) a b
  | function {r body : Rose} {rest : List Rose} {a m b : Nat} (form : r.IsFunction body)
      (code : LinkedFunction M s t r body a m) (later : LinkedParts M s t rest m b) :
      LinkedParts M s t (r :: rest) a b

section Parts

variable {s t : Session} {r body : Rose} {rs : List Rose}

/-- A jump leads to the one labelled statement of the function that has its spelling. -/
theorem targets (jumps : ∀ id ∈ body.collect .jump, id ∈ body.collect .label)
    (labels : (body.collect .label).Nodup)
    (spellings : ∀ i ∈ body.collect .label, ∀ j ∈ body.collect .label, (s.identifier i).spelling =
      (s.identifier j).spelling → i = j) {x : Rose} (mem : x ∈ body.nodes)
    (kind : x.kind = .jump) : ∃ y, s.Targets body x y ∧ y.arg 0 = x.arg 0 := by
  have named {z : Rose} {k : Kind} (inside : z ∈ body.nodes) (same : z.kind = k) :
    z.arg 0 ∈ body.collect k :=
    List.mem_map.mpr ⟨z, List.mem_filter.mpr ⟨inside, by simpa using same⟩, rfl⟩
  have placed := jumps _ (named mem kind)
  obtain ⟨y, found, same⟩ := List.mem_map.mp placed
  obtain ⟨inside, isLabel⟩ := List.mem_filter.mp found
  refine ⟨y, ⟨inside, by simpa using isLabel, by rw [same], fun z there label spelling => ?_⟩, same⟩
  have equal := spellings _ (named there label) _ placed spelling
  exact List.inj_on_of_nodup_map labels (List.mem_filter.mpr ⟨there, by simpa using label⟩) found
    (equal.trans same.symm)

theorem linked_function (form : r.IsFunction body) {label : Int → Int}
    (code : FunctionAt M ⟨label, t.functionAddress⟩ s r body a b)
    (final : ∀ id ∈ r.collect .label, label id = t.displacementOf id)
    (jumps : ∀ id ∈ r.collect .jump, id ∈ r.collect .label) (labels : (r.collect .label).Nodup)
    (spellings : ∀ i ∈ r.collect .label, ∀ j ∈ r.collect .label, (s.identifier i).spelling =
      (s.identifier j).spelling → i = j) : LinkedFunction M s t r body a b := by
  obtain ⟨m, lay, back, rfl⟩ := code.code
  obtain ⟨placed, jumped⟩ := names_function form s
  have agree : Links.AgreeOn ⟨label, t.functionAddress⟩ t.links (body.toStatement s) :=
    fun id mem =>
    (final id (mem.elim (fun here => placed ▸ here) fun gone => jumps id (jumped ▸ gone))).symm
  have relinked : Lay M t.links [] none (body.toStatement s) (a + 3) m none := lay.relink rfl agree
  have whole : (body.bodyAt s a (m + 1)).StandsIn M t.links := relinked
  have marked := relinked.marked (.whole whole)
  rw [collect_function form (.inl rfl)] at jumps labels spellings
  rw [collect_function form (.inr rfl)] at jumps
  refine ⟨⟨code.entry, code.start, m, relinked, back, rfl⟩, labels, fun y mem kind => ?_, ?_⟩
  · obtain ⟨p, X, slot, q, slot', within⟩ := marked.place (Rose.mark_of_label form.body s mem kind)
    have stands : Lay M t.links X slot (.label (y.arg 0) (y.behind.toStatement s)) p q slot' :=
      within.stands
    cases stands with
    | label here _ => exact ⟨p, here, _, _, _, _, within⟩
  · have sites := (marked.widen (le_refl _) (Nat.le_succ m)).jumps
    rw [Piece.jumps_marks, jumped, collect_function form (.inr rfl)] at sites
    refine sites.of_map fun p x mem starts => ⟨starts, ?_⟩
    obtain ⟨inside, kind⟩ := List.mem_filter.mp mem
    obtain ⟨y, target, same⟩ := targets jumps labels spellings inside (by simpa using kind)
    obtain ⟨X, slot, q, slot', within⟩ := starts
    have stands : Lay M t.links X slot (.goto (x.arg 0)) p q slot' := within.stands
    cases stands with
    | goto cells => exact ⟨y, target, same ▸ cells⟩

/-- The parts of a program in memory are linked by the final tables if no two functions have a label
in common. -/
theorem linked_parts (parts : PartsAt M t.links s rs a b) (labels : (labelsIn rs).Nodup)
    (jumps : ∀ r ∈ rs, ∀ id ∈ r.collect .jump, id ∈ r.collect .label)
    (spellings : ∀ r ∈ rs, ∀ i ∈ r.collect .label, ∀ j ∈ r.collect .label,
      (s.identifier i).spelling = (s.identifier j).spelling → i = j) :
    LinkedParts M s t rs a b := by
  induction parts with
  | nil => exact .nil
  | @declaration r rest a m b form code later ih =>
    rw [List.forall_mem_cons] at jumps spellings
    obtain ⟨-, rest, -⟩ := List.nodup_append.mp (labels : (r.collect .label ++ labelsIn _).Nodup)
    exact .declaration form code (ih rest jumps.2 spellings.2)
  | @function r body rest a m b label form code final later ih =>
    rw [List.forall_mem_cons] at jumps spellings
    obtain ⟨own, others, apart⟩ :=
      List.nodup_append.mp (labels : (r.collect .label ++ labelsIn _).Nodup)
    have last (id : Int) (mem : id ∈ r.collect .label) : label id = t.displacementOf id :=
      final id mem fun x part there => apart id mem id (List.mem_flatMap.mpr ⟨x, part, there⟩) rfl
    exact .function form (linked_function form code last jumps.1 own spellings.1)
      (ih others jumps.2 spellings.2)

end Parts

end BilingualC
