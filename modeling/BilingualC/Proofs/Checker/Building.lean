import Mathlib
import BilingualC.Proofs.Checker.State

/-!
# Building nodes

The steps that every rule is made of. A report ends all obligations. A node that is built takes its
children from the top of the stack (`Effect.build`), a constant operand can be discarded, and a
warning changes nothing.
-/

namespace BilingualC

open Std.Do

set_option mvcgen.warning false

@[spec] theorem Guarded.spec {α : Type} (x : Guarded α) : ⦃⌜True⌝⦄ x ⦃⇓? a => ⌜x = .ok a⌝⦄ := by
  cases x with
  | ok a => exact fun _ => rfl
  | error e => exact fun _ => trivial

namespace Checker

/-! ## Runs and triples -/

section Runs

variable {α : Type} {m : Check α} {c₀ c : Checker} {a : α} {Q : α → Checker → Prop}

theorem wp_check (Q : PostCond α (.arg Checker (.except Fault .pure))) :
    wp⟦m⟧ Q c₀ = match m c₀ with
      | .ok (a, c) => Q.1 a c
      | .error e => Q.2.1 e := by
  show (wp (m c₀)).apply (fun p => Q.1 p.1 p.2, Q.2) = _
  cases m c₀ <;> rfl

theorem of_run (spec : ⦃fun c => ⌜c = c₀⌝⦄ m ⦃⇓? a c => ⌜Q a c⌝⦄)
    (run : m c₀ = .ok (a, c)) : Q a c := by
  have holds := spec c₀ rfl
  rw [wp_check, run] at holds
  exact holds

theorem triple_of_run (each : ∀ a c, m c₀ = .ok (a, c) → Q a c) :
    ⦃fun c => ⌜c = c₀⌝⦄ m ⦃⇓? a c => ⌜Q a c⌝⦄ := by
  intro c same
  obtain rfl : c = c₀ := same
  rw [wp_check]
  cases run : m c with
  | ok r => exact each r.1 r.2 run
  | error e => trivial

end Runs

variable {c₀ c : Checker}

/-! ## Access to the session -/

@[spec] theorem setSession_spec (s : Session) :
    ⦃fun c => ⌜c = c₀⌝⦄ setSession s ⦃⇓? _ c => ⌜c = c₀.withSession s⌝⦄ :=
  triple_of_run fun _ _ run => by cases run; rfl

@[spec] theorem setTree_spec (t : Arena) : ⦃fun c => ⌜c = c₀⌝⦄ setTree t ⦃⇓? _ c =>
    ⌜c = c₀.withTree t⌝⦄ :=
  triple_of_run fun _ _ run => by cases run; rfl

@[spec] theorem takeTree_spec :
    ⦃fun c => ⌜c = c₀⌝⦄ takeTree ⦃⇓? t c => ⌜c = c₀.withTree default ∧ t = c₀.session.tree⌝⦄ :=
  triple_of_run fun _ _ run => by cases run; exact ⟨rfl, rfl⟩

/-! ## Reports -/

theorem hadError_add {j j' : Journal} {r : Report} {tag : String} (done : j.add r tag = .ok j') :
    j'.hadError = (j.hadError || r.severity == .error) := by
  have same :
    ∃ text, j' = { j with reports := j.reports.push r, printed := j.printed ++ text } := by
    unfold Journal.add at done
    split at done
    · cases done
      exact ⟨_, rfl⟩
    · obtain ⟨text, _, same⟩ := Guarded.bind_eq_ok.mp done
      cases same
      exact ⟨_, rfl⟩
  obtain ⟨text, rfl⟩ := same
  simp [Journal.hadError]

@[spec] theorem report_spec (loc : Location) (d : Diagnostic) :
    ⦃fun c => ⌜c = c₀⌝⦄ report loc d ⦃⇓? _ c => ⌜c.Dirty⌝⦄ := by
  mvcgen [report, currentSession]
  next done _ _ =>
    rintro rfl
    obtain ⟨j, added, same⟩ := Guarded.bind_eq_ok.mp done
    cases same
    exact (hadError_add added).trans (Bool.or_true _)

@[spec] theorem refuse_spec (loc : Location) (d : Diagnostic) :
    ⦃fun c => ⌜c = c₀⌝⦄ refuse loc d ⦃⇓? _ c => ⌜c.Dirty⌝⦄ := by
  mvcgen [refuse]

theorem hadError_warn {j j' : Journal} {warning : Warning} {loc : Location} {d : Diagnostic}
    (done : j.warn (some warning) loc d = .ok j') : j'.hadError = j.hadError := by
  have added {tag : String} (done : j.add ⟨.warning, loc, d⟩ tag = .ok j') :
    j'.hadError = j.hadError :=
    (hadError_add done).trans (Bool.or_false _)
  unfold Journal.warn at done
  split at done
  · exact added done
  · cases done
    rfl
  · split at done
    · exact added done
    · cases done
      rfl

/-- A warning changes nothing but the journal. -/
@[spec] theorem warn_spec (warning : Warning) (loc : Location) (d : Diagnostic) :
    ⦃fun c => ⌜c = c₀⌝⦄ warn warning loc d ⦃⇓? _ c => ⌜c₀.Effect [] [] c⌝⦄ := by
  mvcgen [warn, currentSession]
  next same s done _ _ =>
    rintro rfl
    obtain ⟨j, warned, made⟩ := Guarded.bind_eq_ok.mp done
    cases made
    obtain rfl := same
    exact .update (fun dirty => (hadError_warn warned).trans dirty) fun _ _ _ stands _ =>
      stands.tables.updates_journal j

/-! ## New nodes -/

/-- The last tree under the root has taken in some of the trees before it, in the order of their
handles. -/
def Adopted (c₀ : Checker) (above : Handle) (ns : List Handle) (c : Checker) : Prop :=
  ∃ t, c = c₀.withTree t ∧ ∀ xs rs ks u, c₀.session.tree.Holds (.unit (xs ++ rs ++ [u])) →
    above = c₀.session.tree.handle u.index → ks.Perm rs →
    ns.filter (· ≠ .broken) = ks.map (fun r => c₀.session.tree.handle r.index) →
    t.Holds (.unit (xs ++ [u.pushAll ks])) ∧
      ∀ j ∈ (Rose.unit (xs ++ rs ++ [u])).indices, t.generation j = c₀.session.tree.generation j

theorem adopted_nil (c : Checker) (above : Handle) : c.Adopted above [] c := by
  refine ⟨c.session.tree, rfl, fun xs rs ks u holds _ order named => ?_⟩
  obtain rfl : ks = [] := List.map_eq_nil_iff.mp named.symm
  obtain rfl : rs = [] := order.symm.eq_nil
  rw [List.append_nil] at holds
  exact ⟨by simpa using holds, fun j _ => rfl⟩

theorem Adopted.cons {t : Arena} {refusal : Option Refusal} {above n : Handle} {rest : List Handle}
    (live : c₀.session.tree.isBroken n = false)
    (moved : c₀.session.tree.adopt above n = .ok (t, refusal))
    (later : (c₀.withTree t).Adopted above rest c) : c₀.Adopted above (n :: rest) c := by
  obtain ⟨t', rfl, later⟩ := later
  refine ⟨t', rfl, fun xs rs ks u holds last order named => ?_⟩
  have there : n ≠ .broken := fun same => by simp [same, Arena.isBroken_broken] at live
  rw [List.filter_cons_of_pos (by simpa using there)] at named
  obtain ⟨k, ks, rfl, rfl, others⟩ := List.map_eq_cons_iff.mp named.symm
  obtain ⟨ys, zs, rfl⟩ := List.append_of_mem (order.mem_iff.mp List.mem_cons_self)
  have shape : xs ++ (ys ++ k :: zs) ++ [u] = xs ++ ys ++ k :: zs ++ [u] := by simp
  rw [shape] at holds ⊢
  obtain ⟨moved, kept⟩ := holds.adopt_last (last ▸ moved)
  have left : ks.Perm (ys ++ zs) := (List.perm_cons k).mp (order.trans List.perm_middle)
  have handles {r : Rose} (mem : r ∈ xs ++ ys ++ k :: zs ++ [u]) :
    t.handle r.index = c₀.session.tree.handle r.index := by
    rw [Arena.handle, Arena.handle, kept _ (Rose.index_mem_unit mem)]
  rw [List.append_assoc xs ys zs] at moved
  obtain ⟨done, same⟩ :=
    later xs (ys ++ zs) ks (u.push k) moved (last.trans (handles (by simp)).symm) left (by
    rw [← others]
    refine List.map_congr_left fun r mem => (handles ?_).symm
    have := left.mem_iff.mp mem
    simp only [List.mem_append, List.mem_cons] at this ⊢
    tauto)
  rw [Rose.pushAll_push] at done
  refine ⟨done, fun j mem => (same j ?_).trans (kept j mem)⟩
  rw [← List.append_assoc xs ys zs]
  exact (Rose.indices_move (xs ++ ys) zs k u).mem_iff.mp mem

/-- A broken node is passed over. -/
theorem Adopted.skip {above n : Handle} {rest : List Handle}
    (broken : c₀.session.tree.isBroken n = true)
    (later : c₀.Adopted above rest c) : c₀.Adopted above (n :: rest) c := by
  obtain ⟨t', rfl, later⟩ := later
  refine ⟨t', rfl, fun xs rs ks u holds last order named => later xs rs ks u holds last order ?_⟩
  by_cases missing : n = .broken
  · rwa [List.filter_cons_of_neg (by simpa using missing)] at named
  · rw [List.filter_cons_of_pos (by simpa using missing)] at named
    obtain ⟨k, ks, rfl, rfl, -⟩ := List.map_eq_cons_iff.mp named.symm
    have inside : k ∈ rs := order.mem_iff.mp List.mem_cons_self
    rw [holds.isBroken_waiting (by simp [inside])] at broken
    cases broken

@[spec] theorem adoptAll_spec (above : Handle) (ns : List Handle) :
    ⦃fun c => ⌜c = c₀⌝⦄ adoptAll above ns ⦃⇓? _ c => ⌜c₀.Adopted above ns c⌝⦄ := by
  induction ns generalizing c₀ with
  | nil =>
    mvcgen [adoptAll]
    next same => exact same ▸ adopted_nil c₀ above
  | cons n rest ih =>
    mvcgen [adoptAll, isBroken, tree, ih]
    next _ same _ live _ _ taken _ moved _ _ put _ _ =>
      subst same put
      obtain ⟨rfl, rfl⟩ := taken
      exact Adopted.cons (by simpa using live) moved
    next _ same _ broken _ _ =>
      subst same
      exact Adopted.skip (by simpa using broken)

/-- A node was built: it stands behind the trees that wait, and has taken in its children, which
were the last ones. -/
def Built (c₀ : Checker) (kind : Kind) (args : List Int) (children : List Handle) (n : Handle)
    (c : Checker) : Prop :=
  ∃ t, c = c₀.withTree t ∧ ∀ xs rs ks, c₀.session.tree.Holds (.unit (xs ++ rs)) → ks.Perm rs →
    children.filter (· ≠ .broken) = ks.map (fun r => c₀.session.tree.handle r.index) →
    ∃ i, t.Holds (.unit (xs ++ [.node i kind.number args ks])) ∧ n = t.handle i ∧
      ∀ j ∈ (Rose.unit (xs ++ rs)).indices, t.generation j = c₀.session.tree.generation j

theorem Built.dirty {kind : Kind} {args : List Int} {children : List Handle} {n : Handle}
    (built : c₀.Built kind args children n c) (dirty : c₀.Dirty) : c.Dirty := by
  obtain ⟨t, rfl, -⟩ := built
  exact dirty

@[spec] theorem build_spec (kind : Kind) (loc : Location) (args : List Int)
    (children : List Handle) : ⦃fun c => ⌜c = c₀⌝⦄ build kind loc args children ⦃⇓? n c =>
    ⌜c₀.Built kind (args ++ [loc.start, loc.stop]) children n c⌝⦄ := by
  mvcgen [build]
  next _ same _ _ taken made added _ _ put _ _ adopted =>
    subst same put
    obtain ⟨rfl, rfl⟩ := taken
    obtain ⟨t, rfl, adopt⟩ := adopted
    refine ⟨t, rfl, fun xs rs ks holds order named => ?_⟩
    obtain ⟨i, grown, handle, kept⟩ := holds.addNode_root added
    obtain ⟨done, same⟩ := adopt xs rs ks _ grown (handle.trans rfl) order (by
      rw [named]
      refine List.map_congr_left fun r _ => ?_
      exact congrArg _ (kept r.index).symm)
    have mine : i ∈
      (Rose.unit (xs ++ rs ++ [.node i kind.number (args ++ [loc.start, loc.stop]) []])).indices :=
      Rose.index_mem_unit (r := .node i kind.number (args ++ [loc.start, loc.stop]) []) (by simp)
    refine ⟨i, done, ?_, fun j mem => (same j ?_).trans (kept j)⟩
    · rw [handle, Arena.handle, Arena.handle, same i mine]
      rfl
    · rw [Rose.indices_unit] at mem ⊢
      simp only [List.mem_cons, List.flatMap_append, List.mem_append] at mem ⊢
      tauto

end Checker

/-- The kinds of nodes that neither name a label nor define a function. -/
def Kind.isPlain : Kind → Bool
  | .label | .jump | .functionDefinition | .unlisted _ => false
  | _ => true

theorem Kind.ofNumber_number {kind : Kind} (listed : ∀ n, kind ≠ .unlisted n) :
    ofNumber kind.number = kind := by
  cases kind <;> first | rfl | exact absurd rfl (listed _)

namespace Checker

variable {c₀ c : Checker} {w : World} {ks rs rest : List Rose} {kind : Kind} {args : List Int}
    {children : List Handle} {n : Handle}

theorem labelsIn_cons (r : Rose) (trees : List Rose) :
    labelsIn (r :: trees) = r.collect .label ++ labelsIn trees :=
  rfl

/-- A node that was built stands above the trees that were not taken in. -/
theorem Stands.adopt (stands : c₀.Stands w (rs ++ rest))
    (built : c₀.Built kind args children n c) (order : ks.Perm rs)
    (named : children.filter (· ≠ .broken) = ks.map fun r => c₀.session.tree.handle r.index)
    (listed : ∀ m, kind ≠ .unlisted m) (refers : ∀ node : Rose, node.kind = kind →
      node.args = args → node.children = ks → c₀.session.Refers node) :
    ∃ t, ∃ node : Rose, c = c₀.withTree t ∧ node.kind = kind ∧ node.args = args ∧
    node.children = ks ∧ t.Holds (.unit (w.parts ++ (node :: rest).reverse)) ∧
    (∀ r ∈ node :: rest, c₀.session.Covers r) ∧ n = t.handle node.index ∧
    ∀ r ∈ rest, t.generation r.index = c₀.session.tree.generation r.index := by
  obtain ⟨t, rfl, built⟩ := built
  have shape : w.parts ++ (rs ++ rest).reverse = (w.parts ++ rest.reverse) ++ rs.reverse := by simp
  have holds := stands.holds
  rw [shape] at holds
  obtain ⟨i, made, handle, kept⟩ := built _ _ ks holds (order.trans rs.reverse_perm.symm) named
  have same : (Rose.node i kind.number args ks).kind = kind := Kind.ofNumber_number listed
  refine ⟨t, .node i kind.number args ks, rfl, same, rfl, rfl, by simpa using made, fun r mem => ?_,
    handle, fun r mem => kept _ (Rose.index_mem_unit (by simp [mem]))⟩
  rcases List.mem_cons.mp mem with rfl | old
  · exact Session.covers_node (refers _ same rfl rfl) fun k child =>
      stands.covers k (List.mem_append_left _ (order.mem_iff.mp child))
  · exact stands.covers r (List.mem_append_right _ old)

theorem Stands.build (stands : c₀.Stands w (rs ++ rest))
    (built : c₀.Built kind args children n c) (order : ks.Perm rs)
    (named : children.filter (· ≠ .broken) = ks.map fun r => c₀.session.tree.handle r.index)
    (plain : kind.isPlain = true) (refers : ∀ node : Rose, node.kind = kind →
      node.args = args → node.children = ks → c₀.session.Refers node) :
    ∃ node : Rose, node.kind = kind ∧ node.args = args ∧ node.children = ks ∧
    c.Stands w (node :: rest) ∧ n = c.session.tree.handle node.index ∧
    ∀ r ∈ rest, c.session.tree.generation r.index = c₀.session.tree.generation r.index := by
  obtain ⟨t, node, rfl, same, arg, kids, made, covers, handle, kept⟩ :=
    stands.adopt built order named (fun m unlisted =>
      by simp [unlisted, Kind.isPlain] at plain) refers
  have inside (k : Kind) (other : kind ≠ k) : node.collect k = ks.flatMap (Rose.collect k) := by
    rw [Rose.collect_other (by rwa [same]), kids]
  refine ⟨node, same, arg, kids, stands.withTree made covers ?_ ?_, handle, kept⟩
  · rw [labelsIn_cons, inside .label (by rintro rfl; cases plain), labelsIn, labelsIn,
      List.flatMap_append]
    exact (order.flatMap_right _).append_right _
  · intro id mem
    rw [jumpsIn, List.flatMap_cons, inside .jump (by rintro rfl; cases plain)] at mem
    rw [jumpsIn, List.flatMap_append]
    rcases List.mem_append.mp mem with new | old
    · exact List.mem_append_left _ ((order.flatMap_right _).mem_iff.mp new)
    · exact List.mem_append_right _ old

/-- A node takes its children from the top of the stack. -/
theorem Built.effectIn (built : c₀.Built kind args children n c)
    {ins : List Slot} {form : Rose → Prop}
    (named : children.filter (· ≠ .broken) = (ins.map (·.handle)).reverse.filter (· ≠ .broken))
    (plain : kind.isPlain = true) (good : ∀ trees rest, c₀.Stands w (trees ++ rest) →
      c₀.Fits ins trees → ∀ node : Rose, node.kind = kind →
      node.args = args → node.children = trees.reverse → form node ∧ c₀.session.Refers node) :
    c₀.EffectIn w ins [⟨n, form⟩] c := by
  rintro base (dirty | ⟨_, stands, fits⟩)
  · obtain ⟨t, rfl, -⟩ := built
    exact .inl dirty
  · obtain ⟨trees, rest, rfl, upper, lower⟩ := fits_append.mp fits
    have live := upper.live stands
    obtain ⟨node, isKind, isArgs, kids, after, handle, kept⟩ :=
      stands.build built trees.reverse_perm (named.trans live) plain fun node k a kids =>
        (good trees rest stands upper node k a kids).2
    exact .inr ⟨node :: rest, after, fits_cons.mpr ⟨node, rest, rfl, handle,
      (good trees rest stands upper node isKind isArgs kids).1, lower.keep kept⟩⟩

theorem Built.effect (built : c₀.Built kind args children n c)
    {ins : List Slot} {form : Rose → Prop}
    (named : children.filter (· ≠ .broken) = (ins.map (·.handle)).reverse.filter (· ≠ .broken))
    (plain : kind.isPlain = true) (good : ∀ w trees rest, c₀.Stands w (trees ++ rest) →
      c₀.Fits ins trees → ∀ node : Rose, node.kind = kind →
      node.args = args → node.children = trees.reverse → form node ∧ c₀.session.Refers node) :
    c₀.Effect ins [⟨n, form⟩] c :=
  fun w => built.effectIn named plain (good w)

end Checker

end BilingualC
