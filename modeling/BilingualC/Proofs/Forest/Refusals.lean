import Mathlib
import BilingualC.Proofs.Arena.Upkeep
import BilingualC.Proofs.Forest.Removals

/-!
# Refused calls

`Tended` forests are those that calls on nodes of the trees and on broken nodes lead to. They stay
tidy: every arena holds a tree, and the nodes in use have their records (`Tidy.answers`).

Main results:
* `Tended.refused_unseen`: nobody sees that a refused call was made;
* `Tended.answers_fair`: every call on nodes of the trees and on broken nodes is answered.
-/

namespace BilingualC

namespace Forest

variable {f g : Forest} {n m : ForestNode} {t u : Arena} {used : ForestNode → Prop}

/-- A node is in the tree of its arena. -/
def Attached (f : Forest) (n : ForestNode) : Prop := ∃ t, f.arena? n = some t ∧ t.Reachable n.handle

/-- A node is in a tree or is no node at all. -/
def Names (f : Forest) (n : ForestNode) : Prop := f.Attached n ∨ f.isBroken n = true

namespace Call

/-- A call is made for nodes of the trees or broken nodes. No record gets longer than a block can
be, a copy goes outside the copied subtree, and a broken node that is to be moved stays broken. -/
def Fair (f : Forest) : Call → Prop
  | .plant _ | .root _ | .load _ _ => True
  | .child n _ | .parent n | .next n | .setType n _ | .setArg n _ _ | .remove n => f.Names n
  | .addChild n _ args => f.Names n ∧ (args.length : Int) ≤ largestBlock
  | .insert n _ argc => f.Names n ∧ 0 ≤ argc ∧ argc ≤ largestBlock
  | .addArg n _ => f.Names n ∧ f.read n 0 Arena.argc < largestBlock
  | .swap a b => f.Names a ∧ f.Names b
  | .adopt above below =>
    f.Names above ∧ f.Names below ∧
      (above.arena = below.arena → ∀ t, f.arena? below = some t → ¬ t.Revives below.handle)
  | .copy n under =>
    f.Names n ∧ f.Names under ∧ (n.arena = under.arena → ∀ t, f.arena? n = some t →
      t.isBroken n.handle = false → ¬ t.Under n.handle under.handle)

/-- The nodes that a call wants to do something to. -/
def Operands : Call → List ForestNode
  | .plant _ | .root _ | .load _ _ => []
  | .child n _ | .parent n | .next n | .setType n _ | .setArg n _ _ | .remove n | .addChild n _ _
  | .insert n _ _ | .addArg n _ =>
    [n]
  | .swap a b | .adopt a b | .copy a b => [a, b]

/-- What a call asks of the arena of one node. -/
def asked? : Call → Option (ForestNode × Arena.Request)
  | .addChild n type args => some (n, .addChild n.handle type args)
  | .insert n type argc => some (n, .insert n.handle type argc)
  | .setType n type => some (n, .setType n.handle type)
  | .setArg n i value => some (n, .setArg n.handle i value)
  | .addArg n value => some (n, .addArg n.handle value)
  | .remove n => some (n, .remove n.handle)
  | _ => none

end Call

/-- The nodes that are in use after a call: those of the trees, and those that were in use before
and are not removed. -/
def InUse (g : Forest) (used : ForestNode → Prop) (call : Call) (reply : Reply)
    (n : ForestNode) : Prop :=
  g.Attached n ∨ (used n ∧ ¬ (call = .remove n ∧ reply = .settled none))

/-- A forest that fair calls lead to, and the nodes in use: those that were once in a tree and were
not removed since. -/
inductive Tended : Forest → (ForestNode → Prop) → Prop
  | none : Tended ⟨#[]⟩ fun _ => False
  | step {f g : Forest} {used : ForestNode → Prop} {call : Call} {reply : Reply} :
    Tended f used → call.Fair f → call.run f = .ok (g, reply) → Tended g (g.InUse used call reply)

/-- Nobody sees the difference between two forests: the arenas have the same sizes and listings, the
same nodes are broken, and the nodes in use read the same. -/
structure Unseen (f g : Forest) (used : ForestNode → Prop) : Prop where
  arenas : g.arenas.size = f.arenas.size
  size : ∀ (i : Nat) (t u : Arena), f.arenas[i]? = some t → g.arenas[i]? = some u → u.size = t.size
  order : ∀ (i : Nat) (t u : Arena), f.arenas[i]? = some t → g.arenas[i]? = some u →
    ∃ l, t.order = .ok l ∧ u.order = .ok l
  isBroken : ∀ n, g.isBroken n = f.isBroken n
  reads : ∀ n, used n → ∀ t u, f.arena? n = some t → g.arena? n = some u → t.Reads u n.handle

/-! ## Tidy forests -/

/-- Every arena holds a tree, and the nodes in use have their records. -/
structure Tidy (f : Forest) (used : ForestNode → Prop) : Prop where
  kept : ∀ (i : Nat) (t : Arena), f.arenas[i]? = some t → t.Kept fun h => used ⟨some i, h⟩
  inside : ∀ n, used n → ∃ t, f.arena? n = some t

theorem Names.here (names : f.Names n) (here : f.arena? n = some t) : t.Names n.handle := by
  rcases names with ⟨t', there, reach⟩ | broken
  · obtain rfl := Option.some_inj.mp (here.symm.trans there)
    exact .inl reach
  · rw [isBroken, here] at broken
    exact .inr broken

theorem Names.of_none (none : f.arena? n = none) : f.isBroken n = true := by rw [isBroken, none]

theorem Tidy.kept_here (tidy : f.Tidy used) (here : f.arena? n = some t) :
    t.Kept fun h => used ⟨n.arena, h⟩ := by
  obtain ⟨i, own, there⟩ := arena_eq here
  rw [own]
  exact tidy.kept i t there

theorem Tidy.mono {other : ForestNode → Prop} (tidy : f.Tidy used) (fewer : ∀ n, other n → used n) :
    f.Tidy other :=
  ⟨fun i t there => (tidy.kept i t there).mono fun _ inside => fewer _ inside,
    fun n inside => tidy.inside n (fewer n inside)⟩

theorem Attached.reachable {i : Nat} {h : Handle} (there : f.arenas[i]? = some t)
    (attached : f.Attached ⟨some i, h⟩) : t.Reachable h := by
  obtain ⟨t', here, reach⟩ := attached
  obtain rfl : t = t' := Option.some_inj.mp (there.symm.trans here)
  exact reach

/-- The nodes of the trees may be used. -/
theorem Tidy.attached (tidy : f.Tidy used) : f.Tidy fun n => f.Attached n ∨ used n := by
  refine ⟨?_, ?_⟩
  · intro i t there
    exact (tidy.kept i t there).reachable.mono fun h inside =>
      inside.imp_left (Attached.reachable there)
  · intro n inside
    rcases inside with ⟨t, here, -⟩ | inside
    · exact ⟨t, here⟩
    · exact tidy.inside n inside

theorem Tidy.stays (tidy : f.Tidy used) (call : Call) (reply : Reply) :
    f.Tidy (f.InUse used call reply) :=
  tidy.attached.mono fun _ inside => inside.imp_right And.left

/-- One arena gives way to another one. -/
theorem Tidy.replace (tidy : f.Tidy used) (here : f.arena? n = some t) {other : ForestNode → Prop}
    (fewer : ∀ m, other m → used m) (kept : u.Kept fun h => u.Reachable h ∨ other ⟨n.arena, h⟩) :
    (f.replace n u).Tidy fun m => (f.replace n u).Attached m ∨ other m := by
  obtain ⟨i, own, there⟩ := arena_eq here
  refine Tidy.attached ⟨fun j v after => ?_, fun m inside => ?_⟩
  · rw [getElem?_replace u own there] at after
    split at after
    · next same =>
      obtain rfl := Option.some_inj.mp after
      exact kept.mono fun h inside => .inr (by rw [own, same]; exact inside)
    · exact (tidy.kept j v after).mono fun _ inside => fewer _ inside
  · obtain ⟨v, home⟩ := tidy.inside m (fewer m inside)
    obtain ⟨j, ours, before⟩ := arena_eq home
    rw [arena?, ours, Option.bind_some, getElem?_replace u own there]
    split
    · exact ⟨_, rfl⟩
    · exact ⟨v, before⟩

theorem Tidy.plant (tidy : f.Tidy used) (rootType : Int) :
    (f.plant (.new rootType)).1.Tidy fun m => (f.plant (.new rootType)).1.Attached m ∨ used m := by
  have pushed (j : Nat) : (f.plant (.new rootType)).1.arenas[j]? =
      if j = f.arenas.size then some (.new rootType) else f.arenas[j]? := Array.getElem?_push
  have bound {m : ForestNode} (inside : used m) : ∃ i v, m.arena = some i ∧ i < f.arenas.size ∧
    f.arenas[i]? = some v := by
    obtain ⟨v, home⟩ := tidy.inside m inside
    obtain ⟨i, own, there⟩ := arena_eq home
    exact ⟨i, v, own, (Array.getElem?_eq_some_iff.mp there).1, there⟩
  refine Tidy.attached ⟨fun j v after => ?_, fun m inside => ?_⟩
  · rw [pushed] at after
    split at after
    · next last =>
      obtain rfl := Option.some_inj.mp after
      refine (Arena.kept_new rootType).mono fun h inside => ?_
      obtain ⟨i, -, own, low, -⟩ := bound inside
      obtain rfl := Option.some_inj.mp own
      omega
    · exact tidy.kept j v after
  · obtain ⟨i, v, own, low, there⟩ := bound inside
    exact ⟨v, by rw [arena?, own, Option.bind_some, pushed, if_neg low.ne, there]⟩

/-! ## Answers -/

/-- The reply to a call that asks an arena. -/
def Reply.of (arena : Option Nat) : Arena.Reply → Reply
  | .done => .settled none
  | .made k => .node ⟨arena, k⟩
  | .refused why => .settled (some why)

theorem grow_answers (here : f.arena? n = some t)
    (add : Arena → Handle → Guarded (Arena × Handle)) {k : Handle}
    (added : add t n.handle = .ok (u, k)) : f.grow n add = .ok (f.replace n u, ⟨n.arena, k⟩) := by
  rw [grow, here]
  simp only [added]
  rfl

theorem change_answers (here : f.arena? n = some t) (act : Arena → Handle → Guarded (Answer Arena))
    {answer : Answer Arena} (acted : act t n.handle = .ok answer) :
    ∃ refusal, f.change n act = .ok (f.replace n (Arena.Request.settle t answer).1, refusal) ∧
    Reply.of n.arena (Arena.Request.settle t answer).2 = .settled refusal := by
  rw [change, here]
  simp only [acted]
  cases answer with
  | ok u => exact ⟨none, rfl, rfl⟩
  | error why =>
    refine ⟨some why, ?_, rfl⟩
    rw [Arena.Request.settle, replace_self here]
    rfl

/-- A new node comes from the arena of the node it belongs to. -/
theorem grow_asked (here : f.arena? n = some t) (add : Arena → Handle → Guarded (Arena × Handle))
    {reply : Arena.Reply} (added : (do
      let (u, k) ← add t n.handle
      return (u, Arena.Reply.made k) : Guarded _) = .ok (u, reply)) :
    (do
      let (g, m) ← f.grow n add
      return (g, Reply.node m) : Guarded _) = .ok (f.replace n u, .of n.arena reply) := by
  obtain ⟨⟨v, k⟩, made, same⟩ := Guarded.bind_eq_ok.mp added
  obtain ⟨rfl, rfl⟩ := Prod.mk.inj (Except.ok.inj same)
  rw [grow_answers here add made]
  rfl

/-- A change is made in the arena of the node. -/
theorem change_asked (here : f.arena? n = some t)
    (act : Arena → Handle → Guarded (Answer Arena)) {reply : Arena.Reply}
    (acted : (do return Arena.Request.settle t (← act t n.handle) : Guarded _) = .ok (u, reply)) :
    (do
      let (g, refusal) ← f.change n act
      return (g, Reply.settled refusal) : Guarded _) = .ok (f.replace n u, .of n.arena reply) := by
  obtain ⟨answer, given, same⟩ := Guarded.bind_eq_ok.mp acted
  obtain ⟨refusal, ran, settled⟩ := change_answers here act given
  rw [Except.ok.inj same] at ran settled
  rw [ran, settled]
  rfl

/-- A call does what its arena is asked for. -/
theorem Call.run_asked (here : f.arena? n = some t) {call : Call}
    {request : Arena.Request} (asked : call.asked? = some (n, request))
    {reply : Arena.Reply} (ran : request.apply t = .ok (u, reply)) :
    call.run f = .ok (f.replace n u, .of n.arena reply) := by
  cases call with
  | plant | root | load | child | parent | next | swap | adopt | copy => cases asked
  | addChild n type args =>
    cases asked
    exact grow_asked here (fun t h => t.addChild h type args) ran
  | insert n type argc =>
    cases asked
    exact grow_asked here (fun t h => t.insert h type argc) ran
  | setType n type =>
    cases asked
    exact change_asked here (fun t h => pure (t.setType h type)) ran
  | setArg n i value =>
    cases asked
    exact change_asked here (fun t h => t.setArg h i value) ran
  | addArg n value =>
    cases asked
    exact change_asked here (fun t h => pure (t.addArg h value)) ran
  | remove n =>
    cases asked
    exact change_asked here Arena.remove ran

/-- A fair call that asks an arena makes an admissible request. -/
theorem Call.Fair.admissible {call : Call} (fair : call.Fair f)
    {request : Arena.Request} (asked : call.asked? = some (n, request))
    (here : f.arena? n = some t) : request.Admissible t := by
  cases call with
  | plant | root | load | child | parent | next | swap | adopt | copy => cases asked
  | setType | setArg | remove =>
    cases asked
    exact Names.here fair here
  | addChild | insert =>
    cases asked
    exact ⟨fair.1.here here, fair.2⟩
  | addArg n value =>
    cases asked
    have short := fair.2
    rw [Forest.read, here] at short
    exact ⟨fair.1.here here, short⟩

theorem Call.asks_of_asked {call : Call} {request : Arena.Request}
    (asked : call.asked? = some (n, request)) : call.Asks n := by
  cases call with
  | plant | root | load | child | parent | next | swap | adopt | copy => cases asked
  | setType | setArg | remove | addChild | insert | addArg =>
    cases asked
    rfl

theorem Call.removes_asked {call : Call} {request : Arena.Request}
    (asked : call.asked? = some (n, request)) (m : ForestNode) (k : Handle)
    (own : m = ⟨n.arena, k⟩) : call = .remove m ↔ request = .remove k := by
  cases call with
  | plant | root | load | child | parent | next | swap | adopt | copy => cases asked
  | setType | setArg | addChild | insert | addArg =>
    cases asked
    simp
  | remove n =>
    cases asked
    subst own
    cases n
    simp

theorem Reply.of_settled {arena : Option Nat} {reply : Arena.Reply} :
    Reply.of arena reply = .settled none ↔ reply = .done := by
  cases reply <;> simp [Reply.of]

/-- A call that asks one arena is answered. -/
theorem Tidy.answers_asked (tidy : f.Tidy used) {call : Call} (fair : call.Fair f)
    {request : Arena.Request} (asked : call.asked? = some (n, request)) :
    ∃ g reply, call.run f = .ok (g, reply) ∧ g.Tidy (g.InUse used call reply) := by
  cases here : f.arena? n with
  | none =>
    obtain ⟨reply, ran, -⟩ := Call.run_broken (Names.of_none here) (Call.asks_of_asked asked)
    exact ⟨f, reply, ran, tidy.stays call reply⟩
  | some t =>
    obtain ⟨u, reply, ran, kept⟩ := (tidy.kept_here here).request (fair.admissible asked here)
    refine ⟨_, _, Call.run_asked here asked ran,
      tidy.replace here (fun _ => And.left) (kept.mono fun h inside => ?_)⟩
    refine inside.imp_right fun ⟨before, remains⟩ => ⟨before, ?_⟩
    rwa [Call.removes_asked asked _ h rfl, Reply.of_settled] at remains

/-- A walk from a node that is in a tree or no node at all ends. -/
theorem Names.walk (names : f.Names n) {query : Arena → Handle → Guarded Handle}
    (blind : ∀ (t : Arena) (h : Handle), t.isBroken h = true → query t h = .ok .broken)
    (seen : ∀ t, f.arena? n = some t → t.Reachable n.handle → ∃ k, query t n.handle = .ok k) :
    ∃ m, f.walk n query = .ok m := by
  rcases names with ⟨t, here, reach⟩ | broken
  · obtain ⟨k, found⟩ := seen t here reach
    exact ⟨⟨n.arena, k⟩, by rw [Forest.walk, here]; simp only [found]; rfl⟩
  · obtain ⟨m, walked, -⟩ := walk_broken broken blind
    exact ⟨m, walked⟩

theorem Tidy.answers_swap (tidy : f.Tidy used) {a b : ForestNode}
    (first : f.Names a) (second : f.Names b) :
    ∃ g refusal, f.swap a b = .ok (g, refusal) ∧ g.Tidy fun n => g.Attached n ∨ used n := by
  by_cases broken : (f.isBroken a || f.isBroken b) = true
  · exact ⟨f, _, if_pos broken, tidy.attached⟩
  by_cases apart : (a.arena != b.arena) = true
  · exact ⟨f, _, by rw [Forest.swap, if_neg broken, if_pos apart]; rfl, tidy.attached⟩
  have home : a.arena = b.arena := by simpa using apart
  cases here : f.arena? a with
  | none =>
    refine ⟨f, _, by rw [Forest.swap, if_neg broken, if_neg apart, change, here]; rfl,
      tidy.attached⟩
  | some t =>
    have there : f.arena? b = some t := by rw [arena?, ← home]; exact here
    have admissible : (Arena.Request.swap a.handle b.handle).Admissible t :=
      ⟨first.here here, second.here there⟩
    obtain ⟨u, reply, ran, kept⟩ := (tidy.kept_here here).request admissible
    obtain ⟨answer, swapped, same⟩ := Guarded.bind_eq_ok.mp ran
    obtain ⟨refusal, changed, -⟩ := change_answers here (fun t h => t.swap h b.handle) swapped
    rw [Except.ok.inj same] at changed
    exact ⟨_, refusal, by rw [Forest.swap, if_neg broken, if_neg apart, changed],
      tidy.replace here (fun _ => id) (kept.mono fun _ inside =>
      inside.imp_right (⟨·, fun gone => Arena.Request.noConfusion gone.1⟩))⟩

theorem Tidy.answers_adopt (tidy : f.Tidy used) {above below : ForestNode}
    (first : f.Names above) (second : f.Names below)
    (dead : above.arena = below.arena → ∀ t, f.arena? below = some t → ¬ t.Revives below.handle) :
    ∃ g refusal, f.adopt above below = .ok (g, refusal) ∧ g.Tidy fun n => g.Attached n ∨
    used n := by
  cases here : f.arena? above with
  | none => exact ⟨f, _, by rw [Forest.adopt, here]; rfl, tidy.attached⟩
  | some t =>
    have admissible : (Arena.Request.adopt above.handle
        (if above.arena == below.arena then below.handle else .broken)).Admissible t := by
      refine ⟨first.here here, ?_⟩
      split
      · next same =>
        have home := eq_of_beq same
        have there : f.arena? below = some t := by rw [arena?, ← home]; exact here
        exact ⟨second.here there, dead home t there⟩
      · exact ⟨.inr (Arena.isBroken_broken t), fun revived => absurd revived.2.2.1 (by decide)⟩
    obtain ⟨u, reply, ran, kept⟩ := (tidy.kept_here here).request admissible
    obtain ⟨⟨v, refusal⟩, adopted, same⟩ := Guarded.bind_eq_ok.mp ran
    obtain ⟨rfl, -⟩ := Prod.mk.inj (Except.ok.inj same)
    refine ⟨f.replace above v, _, by rw [Forest.adopt, here]; simp only [adopted]; rfl, ?_⟩
    exact tidy.replace here (fun _ => id) (kept.mono fun _ inside =>
      inside.imp_right (⟨·, fun gone => Arena.Request.noConfusion gone.1⟩))

theorem Tidy.answers_copy (tidy : f.Tidy used) {under : ForestNode}
    (first : f.Names n) (second : f.Names under) :
    ∃ g m, f.copy n under = .ok (g, m) ∧ g.Tidy fun n => g.Attached n ∨ used n := by
  rcases first with ⟨t, here, reach⟩ | broken
  · have live : t.isBroken n.handle = false := by
      obtain ⟨r, o, keeps⟩ := tidy.kept_here here
      obtain ⟨s, mem, same⟩ := keeps.holds.holds.reachable_iff.mp reach
      obtain ⟨fs, rfl⟩ := Rose.exists_fill mem
      rw [same]
      exact keeps.holds.holds.isBroken
    obtain ⟨s, seen, short⟩ := (tidy.kept_here here).viewOf reach
    have copied : f.copy n under = f.grow under fun t h => t.graft h s := by
      rw [Forest.copy, here]
      simp only [live, seen]
      rfl
    cases there : f.arena? under with
    | none => exact ⟨f, _, by rw [copied, grow, there]; rfl, tidy.attached⟩
    | some v =>
      obtain ⟨u, m, grafted, kept⟩ := (tidy.kept_here there).graft (second.here there) short
      exact ⟨_, _, copied.trans (grow_answers there (fun t h => t.graft h s) grafted),
        tidy.replace there (fun _ => id) kept⟩
  · exact ⟨f, .broken, copy_broken broken under, tidy.attached⟩

/-- Every fair call is answered, and the forest stays tidy. -/
theorem Tidy.answers (tidy : f.Tidy used) {call : Call} (fair : call.Fair f) :
    ∃ g reply, call.run f = .ok (g, reply) ∧ g.Tidy (g.InUse used call reply) := by
  cases call with
  | plant rootType =>
    exact ⟨_, _, rfl, (tidy.plant rootType).mono fun _ inside => inside.imp_right And.left⟩
  | root i => exact ⟨_, _, rfl, tidy.stays ..⟩
  | load i index => exact ⟨_, _, rfl, tidy.stays ..⟩
  | child n i =>
    obtain ⟨m, walked⟩ :=
      Names.walk fair (fun t h gone => t.child_of_broken gone i) fun t here reach =>
      (tidy.attached.kept_here here).links (.inl ⟨t, here, reach⟩) |>.2.1 i
    exact ⟨f, .node m, by rw [Call.run, walked]; rfl, tidy.stays ..⟩
  | parent n =>
    obtain ⟨m, walked⟩ :=
      Names.walk fair (fun t h gone => t.parent_of_broken gone) fun t here reach =>
      (tidy.attached.kept_here here).links (.inl ⟨t, here, reach⟩) |>.2.2
    exact ⟨f, .node m, by rw [Call.run, walked]; rfl, tidy.stays ..⟩
  | next n =>
    obtain ⟨m, walked⟩ := Names.walk fair (fun t h gone =>
      t.next_of_broken gone) fun t here reach => (tidy.kept_here here).next reach
    exact ⟨f, .node m, by rw [Call.run, walked]; rfl, tidy.stays ..⟩
  | addChild | insert | setType | setArg | addArg | remove => exact tidy.answers_asked fair rfl
  | swap a b =>
    obtain ⟨g, refusal, ran, after⟩ := tidy.answers_swap fair.1 fair.2
    exact ⟨g, .settled refusal, by rw [Call.run, ran]; rfl,
      after.mono fun _ inside => inside.imp_right And.left⟩
  | adopt above below =>
    obtain ⟨g, refusal, ran, after⟩ := tidy.answers_adopt fair.1 fair.2.1 fair.2.2
    exact ⟨g, .settled refusal, by rw [Call.run, ran]; rfl,
      after.mono fun _ inside => inside.imp_right And.left⟩
  | copy n under =>
    obtain ⟨g, m, ran, after⟩ := tidy.answers_copy fair.1 fair.2.1
    exact ⟨g, .node m, by rw [Call.run, ran]; rfl, after.mono fun _ inside =>
      inside.imp_right And.left⟩

theorem Tended.tidy (run : Tended f used) : f.Tidy used := by
  induction run with
  | none => exact ⟨fun i t there => by simp at there, nofun⟩
  | step _ fair ran ih =>
    obtain ⟨g, reply, answered, after⟩ := ih.answers fair
    obtain ⟨rfl, rfl⟩ := Prod.mk.inj (Except.ok.inj (answered.symm.trans ran))
    exact after

/-! ## Refusals -/

theorem arena?_replace (here : f.arena? n = some t) (u : Arena) (m : ForestNode) :
    (f.replace n u).arena? m = if m.arena = n.arena then some u else f.arena? m := by
  obtain ⟨i, own, there⟩ := arena_eq here
  rw [arena?, own]
  cases home : m.arena with
  | none => simp [arena?, home]
  | some j =>
    rw [Option.bind_some, getElem?_replace u own there, arena?, home, Option.bind_some]
    simp [eq_comm]

/-- Nobody sees that one arena gave way to one that holds the same trees. -/
theorem Tidy.unseen_replace (tidy : f.Tidy used) (here : f.arena? n = some t) {r : Rose}
    {o : Arena.Orphans} (keeps : t.Upholds (fun h => used ⟨n.arena, h⟩) r o) (twin : t.Twin u r o) :
    f.Unseen (f.replace n u) used := by
  obtain ⟨i, own, there⟩ := arena_eq here
  -- The arenas before and after are the two that hold the same trees, or one arena.
  have pair (j : Nat) (v w : Arena) (before : f.arenas[j]? = some v)
      (after : (f.replace n u).arenas[j]? = some w) : (v = t ∧ w = u) ∨ v = w := by
    rw [getElem?_replace u own there] at after
    split at after
    · next same =>
      exact .inl ⟨Option.some_inj.mp (before.symm.trans (same ▸ there)),
        (Option.some_inj.mp after).symm⟩
    · exact .inr (Option.some_inj.mp (before.symm.trans after))
  refine ⟨size_replace f n u, ?_, ?_, ?_, ?_⟩
  · intro j v w before after
    rcases pair j v w before after with ⟨rfl, rfl⟩ | rfl
    · exact twin.size
    · rfl
  · intro j v w before after
    rcases pair j v w before after with ⟨rfl, rfl⟩ | rfl
    · exact ⟨_, twin.order⟩
    · obtain ⟨r', o', other⟩ := tidy.kept j v before
      exact ⟨_, other.holds.holds.order, other.holds.holds.order⟩
  · intro m
    rw [isBroken, isBroken, arena?_replace here]
    by_cases home : m.arena = n.arena
    · have same : f.arena? m = some t := by rw [arena?, home]; exact here
      rw [if_pos home, same]
      exact twin.isBroken m.handle
    · rw [if_neg home]
  · intro m inside v w before after
    rw [arena?_replace here] at after
    split at after
    · next home =>
      obtain rfl := Option.some_inj.mp after
      have same : f.arena? m = some t := by rw [arena?, home]; exact here
      obtain rfl := Option.some_inj.mp (before.symm.trans same)
      refine keeps.reads twin ?_
      rw [← home]
      exact inside
    · obtain rfl := Option.some_inj.mp (before.symm.trans after)
      exact .refl ..

theorem Tidy.unseen_self (tidy : f.Tidy used) : f.Unseen f used := by
  have same {i : Nat} {v w : Arena} (before : f.arenas[i]? = some v)
    (after : f.arenas[i]? = some w) : w = v :=
    Option.some_inj.mp (after.symm.trans before)
  refine ⟨rfl, fun i v w before after => same before after ▸ rfl, ?_, fun _ => rfl, ?_⟩
  · intro i v w before after
    obtain ⟨r, o, keeps⟩ := tidy.kept i v before
    rw [same before after]
    exact ⟨_, keeps.holds.holds.order, keeps.holds.holds.order⟩
  · intro m inside v w before after
    obtain rfl := Option.some_inj.mp (before.symm.trans after)
    exact .refl ..

theorem change_refused {act : Arena → Handle → Guarded (Answer Arena)} {why : Refusal}
    (done : f.change n act = .ok (g, some why)) : g = f := by
  rw [change] at done
  split at done
  · obtain ⟨answer, -, done⟩ := Guarded.bind_eq_ok.mp done
    cases answer with
    | ok u => cases done
    | error why => exact (Prod.mk.inj (Except.ok.inj done)).1.symm
  · exact (Prod.mk.inj (Except.ok.inj done)).1.symm

/-- Nobody sees that a move was refused. -/
theorem Tidy.adopt_refused (tidy : f.Tidy used) {above below : ForestNode} (names : f.Names above)
    {why : Refusal} (done : f.adopt above below = .ok (g, some why)) : f.Unseen g used := by
  rcases names with ⟨t, here, reach⟩ | broken
  · rw [Forest.adopt, here] at done
    obtain ⟨⟨u, refusal⟩, adopted, done⟩ := Guarded.bind_eq_ok.mp done
    obtain ⟨rfl, refused⟩ := Prod.mk.inj (Except.ok.inj done)
    obtain ⟨r, o, keeps⟩ := tidy.kept_here here
    cases refusal with
    | none => cases refused
    | some why => exact tidy.unseen_replace here keeps (keeps.holds.adopt_undone reach adopted)
  · obtain ⟨rfl, -⟩ := Prod.mk.inj (Except.ok.inj (done.symm.trans (adopt_broken broken below)))
    exact tidy.unseen_self

/-- A refused change that leaves the nodes as they are is not seen. -/
theorem Tidy.unseen_settled (tidy : f.Tidy used) {done : Guarded (Forest × Option Refusal)}
    (same : ∀ g why, done = .ok (g, some why) → g = f) {why : Refusal}
    (refused : (do
      let (g, refusal) ← done
      return (g, Reply.settled refusal) : Guarded _) = .ok (g, .settled (some why))) :
          f.Unseen g used := by
  obtain ⟨⟨h, refusal⟩, changed, answered⟩ := Guarded.bind_eq_ok.mp refused
  obtain ⟨rfl, settled⟩ := Prod.mk.inj (Except.ok.inj answered)
  rw [Reply.settled.inj settled] at changed
  obtain rfl := same _ _ changed
  exact tidy.unseen_self

/-- **A refused call is not seen.** When a call on nodes of the trees or broken nodes is refused,
the arenas have the sizes and listings that they had, the same handles are broken, and every node in
use has the type, the arguments, the children and the parent that it had and takes another argument
exactly if it did before. -/
theorem Tended.refused_unseen (run : Tended f used) {call : Call}
    (operands : ∀ n ∈ call.Operands, f.Names n) {why : Refusal}
    (refused : call.run f = .ok (g, .settled (some why))) : f.Unseen g used := by
  have tidy := run.tidy
  cases call with
  | plant | root | load => cases refused
  | child | parent | next | addChild | insert | copy =>
    obtain ⟨_, -, same⟩ := Guarded.bind_eq_ok.mp refused
    cases same
  | setType | setArg | addArg | remove =>
    exact tidy.unseen_settled (fun _ _ => change_refused) refused
  | swap a b =>
    refine tidy.unseen_settled (fun g why swapped => ?_) refused
    rw [Forest.swap] at swapped
    split at swapped
    · exact (Prod.mk.inj (Except.ok.inj swapped)).1.symm
    split at swapped
    · exact (Prod.mk.inj (Except.ok.inj swapped)).1.symm
    · exact change_refused swapped
  | adopt above below =>
    obtain ⟨⟨h, refusal⟩, adopted, answered⟩ := Guarded.bind_eq_ok.mp refused
    obtain ⟨rfl, settled⟩ := Prod.mk.inj (Except.ok.inj answered)
    rw [Reply.settled.inj settled] at adopted
    exact tidy.adopt_refused (operands above (by simp [Call.Operands])) adopted

/-- Moving the root into itself is refused. It leaves a trace in a cell that nobody reads. -/
theorem Tended.refused_unseen_root :
    ∃ (f g : Forest) (used : ForestNode → Prop) (why : Refusal), Tended f used ∧
    (∀ n ∈ (Call.adopt ⟨some 0, ⟨2, 0⟩⟩ ⟨some 0, ⟨2, 0⟩⟩).Operands, f.Names n) ∧
    (Call.adopt ⟨some 0, ⟨2, 0⟩⟩ ⟨some 0, ⟨2, 0⟩⟩).run f = .ok (g, .settled (some why)) ∧
    f.Unseen g used ∧ g ≠ f := by
  have planted : (Call.plant 0).run ⟨#[]⟩ = .ok (⟨#[.new 0]⟩, .node ⟨some 0, ⟨2, 0⟩⟩) := rfl
  have run := Tended.none.step (show (Call.plant 0).Fair ⟨#[]⟩ from trivial) planted
  have names : ∀ n ∈ (Call.adopt ⟨some 0, ⟨2, 0⟩⟩ ⟨some 0, ⟨2, 0⟩⟩).Operands,
    (Forest.mk #[.new 0]).Names n := by
    intro n mem
    obtain rfl : n = ⟨some 0, ⟨2, 0⟩⟩ := by simpa [Call.Operands] using mem
    exact .inl ⟨.new 0, rfl, .self⟩
  have refused : (Call.adopt ⟨some 0, ⟨2, 0⟩⟩ ⟨some 0, ⟨2, 0⟩⟩).run ⟨#[.new 0]⟩ =
      .ok (⟨#[⟨#[0, 0, 0, -2, 0], (∅ : Std.TreeMap Int UInt32).insert 7 1⟩]⟩,
      .settled (some (.nestedNodes 7 2))) := by
    cbv
  exact ⟨_, _, _, _, run, names, refused, run.refused_unseen names refused, by simp [Arena.new]⟩

/-- **Calls end.** Every call on nodes of the trees or broken nodes is answered. The arguments, the
children and the parents of the nodes in use, those below removed nodes included, can be read, and
the arenas pass their check. -/
theorem Tended.answers_fair (run : Tended f used) :
    (∀ call : Call, call.Fair f → ∃ g reply, call.run f = .ok (g, reply)) ∧
    (∀ n, used n → (∀ k, ∃ v, f.read n (pure 0) (fun t h => t.arg h k) = .ok v) ∧
      (∀ k, ∃ m, (Call.child n k).run f = .ok (f, .node m)) ∧
      ∃ m, (Call.parent n).run f = .ok (f, .node m)) ∧
    ∀ (i : Nat) (t : Arena), f.arenas[i]? = some t → t.isCorrect = .ok true ∧
    ∃ l, t.order = .ok l := by
  have tidy := run.tidy
  refine ⟨?_, ?_, ?_⟩
  · intro call fair
    obtain ⟨g, reply, ran, -⟩ := tidy.answers fair
    exact ⟨g, reply, ran⟩
  · intro n inside
    obtain ⟨t, here⟩ := tidy.inside n inside
    obtain ⟨args, children, m, above⟩ := (tidy.kept_here here).links inside
    refine ⟨?_, ?_, ⟨n.arena, m⟩, ?_⟩
    · intro k
      rw [Forest.read, here]
      exact args k
    · intro k
      obtain ⟨c, found⟩ := children k
      refine ⟨⟨n.arena, c⟩, ?_⟩
      rw [Call.run, Forest.walk, here]
      simp only [found]
      rfl
    · rw [Call.run, Forest.walk, here]
      simp only [above]
      rfl
  · intro i t there
    obtain ⟨r, o, keeps⟩ := tidy.kept i t there
    exact ⟨keeps.holds.holds.isCorrect, _, keeps.holds.holds.order⟩

/-- Two children of a new root change places and one of them is removed; then a swap of the two is
answered. -/
theorem Tended.answers_fair_removed : ∃ (f : Forest) (used : ForestNode → Prop), Tended f used ∧
    f.isBroken ⟨some 0, ⟨7, 0⟩⟩ = true ∧ f.Attached ⟨some 0, ⟨13, 0⟩⟩ ∧
    ∃ g reply, (Call.swap ⟨some 0, ⟨13, 0⟩⟩ ⟨some 0, ⟨7, 0⟩⟩).run f = .ok (g, reply) := by
  let child : Forest := ⟨#[⟨#[0, 0, 1, 7, 0, -2, 1, 0, 0, 1, 10], ∅⟩]⟩
  let pair : Forest := ⟨#[⟨#[0, 0, 2, 7, 0, 13, 1, 0, 0, 1, 10, -2, 2, 0, 0, 0], ∅⟩]⟩
  let turned : Forest := ⟨#[⟨#[0, 0, 2, 13, 0, -2, 1, 0, 0, 1, 10, 7, 2, 0, 0, 0], ∅⟩]⟩
  let left : Forest := ⟨#[⟨#[0, 0, 1, 13, 0, -2, 1, 0, 0, 1, 10, -2, 2, 0, 0, 0],
    (∅ : Std.TreeMap Int UInt32).insert 7 1⟩]⟩
  have planted : (Call.plant 0).run ⟨#[]⟩ = .ok (⟨#[.new 0]⟩, .node ⟨some 0, ⟨2, 0⟩⟩) := rfl
  have first : (Call.addChild ⟨some 0, ⟨2, 0⟩⟩ 1 [10]).run ⟨#[.new 0]⟩ =
      .ok (child, .node ⟨some 0, ⟨7, 0⟩⟩) := by
    cbv
  have second :
      (Call.addChild ⟨some 0, ⟨2, 0⟩⟩ 2 []).run child = .ok (pair, .node ⟨some 0, ⟨13, 0⟩⟩) := by
    cbv
  have swapped : (Call.swap ⟨some 0, ⟨7, 0⟩⟩ ⟨some 0, ⟨13, 0⟩⟩).run pair =
      .ok (turned, .settled Option.none) := by
    cbv
  have removed : (Call.remove ⟨some 0, ⟨7, 0⟩⟩).run turned = .ok (left, .settled Option.none) := by
    cbv
  have root (t : Arena) : Forest.Attached ⟨#[t]⟩ ⟨some 0, t.root⟩ := ⟨t, rfl, .self⟩
  have seven : pair.Attached ⟨some 0, ⟨7, 0⟩⟩ := ⟨_, rfl, .child 0 .self (by cbv) (by cbv)⟩
  have thirteen : pair.Attached ⟨some 0, ⟨13, 0⟩⟩ := ⟨_, rfl, .child 1 .self (by cbv) (by cbv)⟩
  have last : turned.Attached ⟨some 0, ⟨7, 0⟩⟩ := ⟨_, rfl, .child 1 .self (by cbv) (by cbv)⟩
  have stays : left.Attached ⟨some 0, ⟨13, 0⟩⟩ := ⟨_, rfl, .child 0 .self (by cbv) (by cbv)⟩
  have broken : left.isBroken ⟨some 0, ⟨7, 0⟩⟩ = true := by cbv
  have adds : (Call.addChild ⟨some 0, ⟨2, 0⟩⟩ 1 [10]).Fair ⟨#[.new 0]⟩ := ⟨.inl (root _), by decide⟩
  have more : (Call.addChild ⟨some 0, ⟨2, 0⟩⟩ 2 []).Fair child := ⟨.inl (root _), by decide⟩
  have swaps : (Call.swap ⟨some 0, ⟨7, 0⟩⟩ ⟨some 0, ⟨13, 0⟩⟩).Fair pair :=
    ⟨.inl seven, .inl thirteen⟩
  have removes : (Call.remove ⟨some 0, ⟨7, 0⟩⟩).Fair turned := .inl last
  have fresh := Tended.none.step (show (Call.plant 0).Fair ⟨#[]⟩ from trivial) planted
  have run := (((fresh.step adds first).step more second).step swaps swapped).step removes removed
  exact ⟨left, _, run, broken, stays, run.answers_fair.1 _ ⟨.inl stays, .inr broken⟩⟩

/-- Below a removed node that had a sibling the way up goes astray: the parent of the child is a new
handle of the removed record, and the link of that record leads out of the arena once the sibling is
removed too. -/
theorem parent_astray :
    (Call.parent ⟨some 0, ⟨12, 0⟩⟩).run ⟨#[⟨#[0, 0, 0, -2, 0, 17, 1, 1, 12, 0, -7, 2, 0, 0, 0],
      ((∅ : Std.TreeMap Int UInt32).insert 7 1).insert 17 1⟩]⟩ =
      .ok (⟨#[⟨#[0, 0, 0, -2, 0, 17, 1, 1, 12, 0, -7, 2, 0, 0, 0],
        ((∅ : Std.TreeMap Int UInt32).insert 7 1).insert 17 1⟩]⟩, .node ⟨some 0, ⟨7, 1⟩⟩) ∧
    (Call.parent ⟨some 0, ⟨7, 1⟩⟩).run ⟨#[⟨#[0, 0, 0, -2, 0, 17, 1, 1, 12, 0, -7, 2, 0, 0, 0],
      ((∅ : Std.TreeMap Int UInt32).insert 7 1).insert 17 1⟩]⟩ = .error .badIndex :=
  ⟨by cbv, by cbv⟩

end Forest

end BilingualC
