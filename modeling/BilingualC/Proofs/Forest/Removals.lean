import Mathlib
import BilingualC.Arena.Forest
import BilingualC.Proofs.Arena.Generations
import BilingualC.Proofs.Arena.Growth

/-!
# Handles of removed nodes

A `Call` is anything that can be asked of a forest, and a `History` is a forest together with the
removals that led to it, those of the placeholders of moves included. The generation of an index
counts the removals at it (`Counted`), so the handle of a removed node is never given again.

Main result: `History.removed_for_good`.
-/

namespace BilingualC

namespace Forest

/-- A call on the nodes of a forest. -/
inductive Call where
  | plant (rootType : Int)
  | root (arena : Nat)
  | load (arena : Nat) (index : Int)
  | child (n : ForestNode) (i : Int)
  | parent (n : ForestNode)
  | next (n : ForestNode)
  | addChild (n : ForestNode) (type : Int) (args : List Int)
  | insert (n : ForestNode) (type argc : Int)
  | copy (n under : ForestNode)
  | setType (n : ForestNode) (type : Int)
  | setArg (n : ForestNode) (i value : Int)
  | addArg (n : ForestNode) (value : Int)
  | swap (a b : ForestNode)
  | remove (n : ForestNode)
  | adopt (above below : ForestNode)

/-- What a call is answered with: a node, or whether it was refused. -/
inductive Reply where
  | node (n : ForestNode)
  | settled (refusal : Option Refusal)

/-- A node that is looked up in an arena. -/
def seek (f : Forest) (i : Nat) (query : Arena → Handle) : ForestNode :=
  match f.arenas[i]? with
  | some t => ⟨some i, query t⟩
  | none => .broken

namespace Call

/-- Does what is asked for. -/
def run (f : Forest) : Call → Guarded (Forest × Reply)
  | .plant rootType =>
    pure ((f.plant (.new rootType)).1, .node ⟨some f.arenas.size, (Arena.new rootType).root⟩)
  | .root i => pure (f, .node (f.seek i Arena.root))
  | .load i index => pure (f, .node (f.seek i (·.load index)))
  | .child n i => do return (f, .node (← f.walk n fun t h => t.child h i))
  | .parent n => do return (f, .node (← f.walk n Arena.parent))
  | .next n => do return (f, .node (← f.walk n Arena.next))
  | .addChild n type args => do
    let (g, m) ← f.grow n fun t h => t.addChild h type args
    return (g, .node m)
  | .insert n type argc => do
    let (g, m) ← f.grow n fun t h => t.insert h type argc
    return (g, .node m)
  | .copy n under => do
    let (g, m) ← f.copy n under
    return (g, .node m)
  | .setType n type => do
    let (g, refusal) ← f.change n fun t h => pure (t.setType h type)
    return (g, .settled refusal)
  | .setArg n i value => do
    let (g, refusal) ← f.change n fun t h => t.setArg h i value
    return (g, .settled refusal)
  | .addArg n value => do
    let (g, refusal) ← f.change n fun t h => pure (t.addArg h value)
    return (g, .settled refusal)
  | .swap a b => do
    let (g, refusal) ← f.swap a b
    return (g, .settled refusal)
  | .remove n => do
    let (g, refusal) ← f.change n Arena.remove
    return (g, .settled refusal)
  | .adopt above below => do
    let (g, refusal) ← f.adopt above below
    return (g, .settled refusal)

/-- The index at which a call removes a node, with the number of its arena. A move removes its
placeholder. -/
def removes (f : Forest) : Call → Reply → Option (Nat × Int)
  | .remove n, .settled none => n.arena.map (·, n.handle.index)
  | .adopt above _, .settled _ =>
    if f.isBroken above then none else above.arena.bind fun i => f.arenas[i]?.map fun t =>
    (i, t.freshIndex)
  | _, _ => none

/-- A call that answers with a node removes none. -/
theorem removes_node (f : Forest) (call : Call) (m : ForestNode) :
    call.removes f (.node m) = none := by
  cases call <;> rfl

/-- A call wants to change something with the help of a node. -/
def Uses (n : ForestNode) : Call → Prop
  | .addChild m _ _ | .insert m _ _ | .setType m _ | .setArg m _ _ | .addArg m _ | .remove m =>
    m = n
  | .copy a b | .swap a b | .adopt a b => a = n ∨ b = n
  | _ => False

/-- A call looks at a node before it does anything else. -/
def Asks (n : ForestNode) : Call → Prop
  | .addChild m _ _ | .insert m _ _ | .setType m _ | .setArg m _ _ | .addArg m _ | .remove m
  | .copy m _ | .adopt m _ =>
    m = n
  | .swap a b => a = n ∨ b = n
  | _ => False

end Call

/-- A reply to a call with a broken node. -/
def Reply.Refuses : Reply → Prop
  | .node m => m.handle = .broken
  | .settled refusal => refusal = some .brokenNode

/-! ## Generations of a forest -/

variable {f g : Forest} {n m : ForestNode}

/-- A node is no node of an arena or carries the generation of its index. -/
def Current (f : Forest) (n : ForestNode) : Prop :=
  n.handle = .broken ∨ ∃ i t, n.arena = some i ∧ f.arenas[i]? = some t ∧
    n.handle.generation = t.generation n.handle.index

/-- The arenas of two forests have the same generations. -/
structure Steady (f g : Forest) : Prop where
  size : g.arenas.size = f.arenas.size
  generations : ∀ (i : Nat) (t u : Arena), f.arenas[i]? = some t → g.arenas[i]? = some u →
    u.generations = t.generations

theorem Steady.refl (f : Forest) : f.Steady f := ⟨rfl, fun _ t u first second => by
  obtain rfl := Option.some_inj.mp (first.symm.trans second)
  rfl⟩

theorem arena_eq {t : Arena} (here : f.arena? n = some t) : ∃ i, n.arena = some i ∧
    f.arenas[i]? = some t :=
  Option.bind_eq_some_iff.mp here

theorem getElem?_replace {t : Arena} (u : Arena) {i : Nat}
    (own : n.arena = some i) (here : f.arenas[i]? = some t) (j : Nat) :
    (f.replace n u).arenas[j]? = if i = j then some u else f.arenas[j]? := by
  rw [replace, own, Array.getElem?_setIfInBounds]
  obtain ⟨inside, -⟩ := Array.getElem?_eq_some_iff.mp here
  by_cases same : i = j
  · rw [if_pos same, if_pos same, if_pos (same ▸ inside)]
  · rw [if_neg same, if_neg same]

theorem size_replace (f : Forest) (n : ForestNode) (u : Arena) :
    (f.replace n u).arenas.size = f.arenas.size := by
  rw [replace]
  split
  · exact Array.size_setIfInBounds
  · rfl

theorem Steady.replace {t u : Arena} (here : f.arena? n = some t)
    (same : u.generations = t.generations) : f.Steady (f.replace n u) := by
  obtain ⟨i, own, there⟩ := arena_eq here
  refine ⟨size_replace f n u, fun j t' u' first second => ?_⟩
  rw [getElem?_replace u own there] at second
  split at second
  · next eq =>
    obtain rfl := Option.some_inj.mp second
    obtain rfl := Option.some_inj.mp (there.symm.trans (eq ▸ first))
    exact same
  · exact (Steady.refl f).generations j t' u' first second

theorem seek_current (i : Nat) {query : Arena → Handle}
    (current : ∀ t : Arena, t.Current (query t)) : f.Current (f.seek i query) := by
  rw [seek]
  split
  · next t here =>
    rcases current t with broken | same
    · exact .inl broken
    · exact .inr ⟨i, t, rfl, here, same⟩
  · exact .inl rfl

theorem walk_current {query : Arena → Handle → Guarded Handle}
    (current : ∀ (t : Arena) (h k : Handle), query t h = .ok k → t.Current k)
    (done : f.walk n query = .ok m) : f.Current m := by
  rw [walk] at done
  split at done
  · next t here =>
    obtain ⟨i, own, there⟩ := arena_eq here
    obtain ⟨k, found, done⟩ := Guarded.bind_eq_ok.mp done
    obtain rfl := Except.ok.inj done
    rcases current t _ _ found with broken | same
    · exact .inl broken
    · exact .inr ⟨i, t, own, there, same⟩
  · exact Except.ok.inj done ▸ .inl rfl

theorem grow_current {add : Arena → Handle → Guarded (Arena × Handle)}
    (current : ∀ (t u : Arena) (h k : Handle), add t h = .ok (u, k) →
      u.generations = t.generations ∧ u.Current k)
    (done : f.grow n add = .ok (g, m)) : f.Steady g ∧ g.Current m := by
  rw [grow] at done
  split at done
  · next t here =>
    obtain ⟨i, own, there⟩ := arena_eq here
    obtain ⟨⟨u, k⟩, added, done⟩ := Guarded.bind_eq_ok.mp done
    obtain ⟨rfl, rfl⟩ := Prod.mk.inj (Except.ok.inj done)
    obtain ⟨same, known⟩ := current t u _ k added
    refine ⟨.replace here same, ?_⟩
    rcases known with broken | known
    · exact .inl broken
    · refine .inr ⟨i, u, own, ?_, known⟩
      rw [getElem?_replace u own there, if_pos rfl]
  · obtain ⟨rfl, rfl⟩ := Prod.mk.inj (Except.ok.inj done)
    exact ⟨.refl _, .inl rfl⟩

theorem change_steady {act : Arena → Handle → Guarded (Answer Arena)} {refusal : Option Refusal}
    (keeps : ∀ (t u : Arena) (h : Handle), act t h = .ok (.ok u) → u.generations = t.generations)
    (done : f.change n act = .ok (g, refusal)) : f.Steady g := by
  rw [change] at done
  split at done
  · next t here =>
    obtain ⟨answer, acted, done⟩ := Guarded.bind_eq_ok.mp done
    cases answer with
    | ok u =>
      obtain ⟨rfl, -⟩ := Prod.mk.inj (Except.ok.inj done)
      exact .replace here (keeps t u _ acted)
    | error why =>
      obtain ⟨rfl, -⟩ := Prod.mk.inj (Except.ok.inj done)
      exact .refl _
  · obtain ⟨rfl, -⟩ := Prod.mk.inj (Except.ok.inj done)
    exact .refl _

theorem copy_current {under : ForestNode} (done : f.copy n under = .ok (g, m)) : f.Steady g ∧
    g.Current m := by
  rw [copy] at done
  split at done
  · obtain ⟨rfl, rfl⟩ := Prod.mk.inj (Except.ok.inj done)
    exact ⟨.refl _, .inl rfl⟩
  · split at done
    · obtain ⟨rfl, rfl⟩ := Prod.mk.inj (Except.ok.inj done)
      exact ⟨.refl _, .inl rfl⟩
    · obtain ⟨rose, -, done⟩ := Guarded.bind_eq_ok.mp done
      exact grow_current (fun t u h k added => Arena.graft_current rose added) done

theorem swap_steady {refusal : Option Refusal} (done : f.swap n m = .ok (g, refusal)) :
    f.Steady g := by
  rw [swap] at done
  split at done
  · obtain ⟨rfl, -⟩ := Prod.mk.inj (Except.ok.inj done)
    exact .refl _
  split at done
  · obtain ⟨rfl, -⟩ := Prod.mk.inj (Except.ok.inj done)
    exact .refl _
  · exact change_steady (fun t u h swapped => Arena.swap_generations swapped) done

/-- The generation of every index after a call, which may have removed a node. -/
structure Counts (f g : Forest) (removed : Option (Nat × Int)) : Prop where
  size : f.arenas.size ≤ g.arenas.size
  old : ∀ (i : Nat) (t u : Arena), f.arenas[i]? = some t → g.arenas[i]? = some u → ∀ k,
    u.generation k = if removed = some (i, k) then t.generation k + 1 else t.generation k
  new : ∀ (i : Nat) (u : Arena), f.arenas.size ≤ i → g.arenas[i]? = some u → ∀ k, u.generation k = 0
  inside : ∀ p ∈ removed, p.1 < f.arenas.size

theorem Steady.counts (steady : f.Steady g) : f.Counts g none := by
  refine ⟨steady.size.ge, ?_, ?_, nofun⟩
  · intro i t u first second k
    rw [if_neg nofun, Arena.generation, steady.generations i t u first second]
    rfl
  · intro i u high there
    have := (Array.getElem?_eq_some_iff.mp there).1
    rw [steady.size] at this
    omega

/-- An arena whose generations change at one index. -/
theorem Counts.replace {t u : Arena} {i : Nat} {k : Int}
    (own : n.arena = some i) (there : f.arenas[i]? = some t)
    (changed : ∀ j, u.generation j = if j = k then t.generation j + 1 else t.generation j) :
    f.Counts (f.replace n u) (some (i, k)) := by
  obtain ⟨inside, -⟩ := Array.getElem?_eq_some_iff.mp there
  refine ⟨(size_replace f n u).ge, ?_, ?_, ?_⟩
  · intro j t' u' first second l
    rw [getElem?_replace u own there] at second
    split at second
    · next same =>
      subst same
      obtain rfl := Option.some_inj.mp second
      obtain rfl := Option.some_inj.mp (there.symm.trans first)
      rw [changed]
      by_cases here : l = k
      · rw [if_pos here, if_pos (by rw [here])]
      · rw [if_neg here, if_neg (fun same => here (Prod.mk.inj (Option.some_inj.mp same)).2.symm)]
    · next other =>
      obtain rfl := Option.some_inj.mp (first.symm.trans second)
      rw [if_neg (fun same => other (Prod.mk.inj (Option.some_inj.mp same)).1)]
  · intro j u' high there
    have := (Array.getElem?_eq_some_iff.mp there).1
    rw [size_replace] at this
    omega
  · rintro p same
    cases same
    exact inside

theorem remove_counts {refusal : Option Refusal}
    (done : f.change n Arena.remove = .ok (g, refusal)) :
    f.Counts g (Call.removes f (.remove n) (.settled refusal)) ∧
    (refusal = none → f.isBroken n = false) := by
  rw [change] at done
  split at done
  · next t here =>
    obtain ⟨i, own, there⟩ := arena_eq here
    obtain ⟨answer, acted, done⟩ := Guarded.bind_eq_ok.mp done
    cases answer with
    | ok u =>
      obtain ⟨rfl, rfl⟩ := Prod.mk.inj (Except.ok.inj done)
      obtain ⟨live, detached⟩ := Arena.remove_eq acted
      refine ⟨?_, fun _ => ?_⟩
      · rw [Call.removes, own]
        exact .replace own there fun j => Arena.detach_generation detached j
      · rw [isBroken, here]
        exact live
    | error why =>
      obtain ⟨rfl, rfl⟩ := Prod.mk.inj (Except.ok.inj done)
      exact ⟨(Steady.refl _).counts, nofun⟩
  · obtain ⟨rfl, rfl⟩ := Prod.mk.inj (Except.ok.inj done)
    exact ⟨(Steady.refl _).counts, nofun⟩

theorem adopt_counts {refusal : Option Refusal} (done : f.adopt n m = .ok (g, refusal)) :
    f.Counts g (Call.removes f (.adopt n m) (.settled refusal)) := by
  rw [adopt] at done
  split at done
  · next none =>
    obtain ⟨rfl, rfl⟩ := Prod.mk.inj (Except.ok.inj done)
    have broken : f.isBroken n = true := by rw [isBroken, none]
    rw [Call.removes, if_pos broken]
    exact (Steady.refl _).counts
  · next t here =>
    obtain ⟨i, own, there⟩ := arena_eq here
    obtain ⟨⟨u, answer⟩, adopted, done⟩ := Guarded.bind_eq_ok.mp done
    obtain ⟨rfl, -⟩ := Prod.mk.inj (Except.ok.inj done)
    have broken : f.isBroken n = t.isBroken n.handle := by rw [isBroken, here]
    rw [Call.removes, broken, own]
    rcases Arena.adopt_cases adopted with ⟨gone, rfl, -⟩ | ⟨live, grown, moved, moves⟩
    · rw [if_pos gone]
      exact (Steady.replace here rfl).counts
    · rw [if_neg (by simp [live]), Option.bind_some, there]
      exact .replace own there moves.generation

/-- What a call does to the generations, and the generation of a node that it answers with. -/
theorem Call.run_counts {call : Call} {reply : Reply} (ran : call.run f = .ok (g, reply)) :
    f.Counts g (call.removes f reply) ∧ ∀ m, reply = .node m → g.Current m := by
  -- calls that only read keep all generations, and answer with the one they find
  have stays (m : ForestNode) (current : f.Current m) : f.Counts f none ∧
    ∀ k, Reply.node m = .node k → f.Current k :=
    ⟨(Steady.refl f).counts, fun k same => by
      obtain rfl := Reply.node.inj same
      exact current⟩
  cases call with
  | plant rootType =>
    obtain ⟨rfl, rfl⟩ := Prod.mk.inj (Except.ok.inj ran)
    -- a new arena comes behind the others, and its root is of the first generation
    have pushed (j : Nat) : (f.plant (.new rootType)).1.arenas[j]? = if j = f.arenas.size
      then some (.new rootType) else f.arenas[j]? :=
      Array.getElem?_push
    have longer : f.arenas.size ≤ (f.plant (.new rootType)).1.arenas.size := by
      rw [show (f.plant (.new rootType)).1.arenas.size = f.arenas.size + 1 from Array.size_push ..]
      omega
    refine ⟨⟨longer, fun i t u first second k => ?_, fun i u high there k => ?_, nofun⟩, ?_⟩
    · have inside := (Array.getElem?_eq_some_iff.mp first).1
      rw [pushed, if_neg (by omega)] at second
      obtain rfl := Option.some_inj.mp (first.symm.trans second)
      rfl
    · rw [pushed] at there
      split at there
      · exact Option.some_inj.mp there ▸ rfl
      · have := (Array.getElem?_eq_some_iff.mp there).1
        omega
    · rintro m ⟨⟩
      exact .inr ⟨_, _, rfl, by rw [pushed, if_pos rfl], rfl⟩
  | root i =>
    obtain ⟨rfl, rfl⟩ := Prod.mk.inj (Except.ok.inj ran)
    exact stays _ (seek_current i fun t => t.current_handle _)
  | load i index =>
    obtain ⟨rfl, rfl⟩ := Prod.mk.inj (Except.ok.inj ran)
    exact stays _ (seek_current i fun t => t.current_load index)
  | child n i =>
    obtain ⟨m, walked, same⟩ := Guarded.bind_eq_ok.mp ran
    obtain ⟨rfl, rfl⟩ := Prod.mk.inj (Except.ok.inj same)
    exact stays m (walk_current (fun t h k found => Arena.current_child found) walked)
  | parent n =>
    obtain ⟨m, walked, same⟩ := Guarded.bind_eq_ok.mp ran
    obtain ⟨rfl, rfl⟩ := Prod.mk.inj (Except.ok.inj same)
    exact stays m (walk_current (fun t h k found => Arena.current_parent found) walked)
  | next n =>
    obtain ⟨m, walked, same⟩ := Guarded.bind_eq_ok.mp ran
    obtain ⟨rfl, rfl⟩ := Prod.mk.inj (Except.ok.inj same)
    exact stays m (walk_current (fun t h k found => Arena.current_next found) walked)
  | addChild n type args =>
    obtain ⟨⟨u, m⟩, grown, same⟩ := Guarded.bind_eq_ok.mp ran
    obtain ⟨rfl, rfl⟩ := Prod.mk.inj (Except.ok.inj same)
    obtain ⟨steady, current⟩ :=
      grow_current (fun t u h k added => Arena.addChild_current added) grown
    exact ⟨steady.counts, fun k same => Reply.node.inj same ▸ current⟩
  | insert n type argc =>
    obtain ⟨⟨u, m⟩, grown, same⟩ := Guarded.bind_eq_ok.mp ran
    obtain ⟨rfl, rfl⟩ := Prod.mk.inj (Except.ok.inj same)
    obtain ⟨steady, current⟩ := grow_current (fun t u h k added => Arena.insert_current added) grown
    exact ⟨steady.counts, fun k same => Reply.node.inj same ▸ current⟩
  | copy n under =>
    obtain ⟨⟨u, m⟩, copied, same⟩ := Guarded.bind_eq_ok.mp ran
    obtain ⟨rfl, rfl⟩ := Prod.mk.inj (Except.ok.inj same)
    obtain ⟨steady, current⟩ := copy_current copied
    exact ⟨steady.counts, fun k same => Reply.node.inj same ▸ current⟩
  | setType n type =>
    obtain ⟨⟨u, refusal⟩, changed, same⟩ := Guarded.bind_eq_ok.mp ran
    obtain ⟨rfl, rfl⟩ := Prod.mk.inj (Except.ok.inj same)
    exact ⟨(change_steady (fun t u h acted =>
      Arena.setType_generations (Except.ok.inj acted)) changed).counts, nofun⟩
  | setArg n i value =>
    obtain ⟨⟨u, refusal⟩, changed, same⟩ := Guarded.bind_eq_ok.mp ran
    obtain ⟨rfl, rfl⟩ := Prod.mk.inj (Except.ok.inj same)
    exact ⟨(change_steady (fun t u h acted => Arena.setArg_generations acted) changed).counts,
      nofun⟩
  | addArg n value =>
    obtain ⟨⟨u, refusal⟩, changed, same⟩ := Guarded.bind_eq_ok.mp ran
    obtain ⟨rfl, rfl⟩ := Prod.mk.inj (Except.ok.inj same)
    exact ⟨(change_steady (fun t u h acted =>
      Arena.addArg_generations (Except.ok.inj acted)) changed).counts, nofun⟩
  | swap a b =>
    obtain ⟨⟨u, refusal⟩, swapped, same⟩ := Guarded.bind_eq_ok.mp ran
    obtain ⟨rfl, rfl⟩ := Prod.mk.inj (Except.ok.inj same)
    exact ⟨(swap_steady swapped).counts, nofun⟩
  | remove n =>
    obtain ⟨⟨u, refusal⟩, changed, same⟩ := Guarded.bind_eq_ok.mp ran
    obtain ⟨rfl, rfl⟩ := Prod.mk.inj (Except.ok.inj same)
    exact ⟨(remove_counts changed).1, nofun⟩
  | adopt above below =>
    obtain ⟨⟨u, refusal⟩, adopted, same⟩ := Guarded.bind_eq_ok.mp ran
    obtain ⟨rfl, rfl⟩ := Prod.mk.inj (Except.ok.inj same)
    exact ⟨adopt_counts adopted, nofun⟩

/-! ## Calls with broken nodes -/

theorem replace_self {t : Arena} (here : f.arena? n = some t) : f.replace n t = f := by
  obtain ⟨i, own, there⟩ := arena_eq here
  obtain ⟨inside, rfl⟩ := Array.getElem?_eq_some_iff.mp there
  rw [replace, own]
  refine congrArg Forest.mk (Array.ext_getElem? fun j => ?_)
  rw [Array.getElem?_setIfInBounds]
  split
  · next same =>
    subst same
    exact there.symm
  · rfl

theorem walk_broken (broken : f.isBroken n = true) {query : Arena → Handle → Guarded Handle}
    (blind : ∀ (t : Arena) (h : Handle), t.isBroken h = true → query t h = .ok .broken) :
    ∃ m, f.walk n query = .ok m ∧ m.handle = .broken := by
  rw [isBroken] at broken
  rw [walk]
  split at broken
  · exact ⟨⟨n.arena, .broken⟩, by simp only [blind _ _ broken]; rfl, rfl⟩
  · exact ⟨.broken, rfl, rfl⟩

theorem grow_broken (broken : f.isBroken n = true) {add : Arena → Handle → Guarded (Arena × Handle)}
    (blind : ∀ (t : Arena) (h : Handle), t.isBroken h = true → add t h = .ok (t, .broken)) :
    ∃ m, f.grow n add = .ok (f, m) ∧ m.handle = .broken := by
  rw [isBroken] at broken
  rw [grow]
  split at broken
  · next t here =>
    refine ⟨⟨n.arena, .broken⟩, ?_, rfl⟩
    simp only [blind t _ broken, bind, Except.bind, replace_self here]
    rfl
  · exact ⟨.broken, rfl, rfl⟩

theorem change_broken (broken : f.isBroken n = true) {act : Arena → Handle → Guarded (Answer Arena)}
    (blind : ∀ (t : Arena) (h : Handle), t.isBroken h = true → act t h = .ok (.error .brokenNode)) :
    f.change n act = .ok (f, some .brokenNode) := by
  rw [isBroken] at broken
  rw [change]
  split at broken
  · simp only [blind _ _ broken]
    rfl
  · rfl

theorem copy_broken (broken : f.isBroken n = true) (under : ForestNode) :
    f.copy n under = .ok (f, .broken) := by
  rw [isBroken] at broken
  rw [copy]
  cases here : f.arena? n with
  | none => rfl
  | some t =>
    rw [here] at broken
    exact if_pos broken

theorem adopt_broken (broken : f.isBroken n = true) (below : ForestNode) :
    f.adopt n below = .ok (f, some .brokenNode) := by
  rw [adopt]
  cases here : f.arena? n with
  | none => rfl
  | some t =>
    have gone : t.isBroken n.handle = true := by
      rw [isBroken, here] at broken
      exact broken
    have refused (k : Handle) : t.adopt n.handle k = .ok (t, some .brokenNode) := by
      have added : t.addChild n.handle 0 [] = .ok (t, .broken) := if_pos gone
      simp only [Arena.adopt, added, bind, Except.bind, Arena.isBroken_broken, if_true]
      rfl
    simp only [refused, bind, Except.bind, broken, replace_self here, Bool.not_true, Bool.and_false,
      Bool.false_eq_true, if_false]
    rfl

/-- A call that looks at a broken node first changes nothing. -/
theorem Call.run_broken (broken : f.isBroken n = true) {call : Call} (asks : call.Asks n) :
    ∃ reply, call.run f = .ok (f, reply) ∧ reply.Refuses := by
  have grown {add : Arena → Handle → Guarded (Arena × Handle)}
      (blind : ∀ (t : Arena) (h : Handle), t.isBroken h = true → add t h = .ok (t, .broken)) :
      ∃ reply : Reply, (do
        let (g, m) ← f.grow n add
        return (g, Reply.node m) : Guarded _) = .ok (f, reply) ∧ reply.Refuses := by
    obtain ⟨m, ran, gone⟩ := grow_broken broken blind
    exact ⟨.node m, by rw [ran]; rfl, gone⟩
  have refused {act : Arena → Handle → Guarded (Answer Arena)} (blind : ∀ (t : Arena) (h : Handle),
      t.isBroken h = true → act t h = .ok (.error .brokenNode)) : ∃ reply : Reply, (do
        let (g, refusal) ← f.change n act
        return (g, Reply.settled refusal) : Guarded _) = .ok (f, reply) ∧ reply.Refuses :=
    ⟨.settled (some .brokenNode), by rw [change_broken broken blind]; rfl, rfl⟩
  cases call with
  | plant | root | load | child | parent | next => exact asks.elim
  | addChild m type args =>
    obtain rfl : m = n := asks
    exact grown fun t h gone => if_pos gone
  | insert m type argc =>
    obtain rfl : m = n := asks
    exact grown fun t h gone => if_pos (by rw [gone]; rfl)
  | copy m under =>
    obtain rfl : m = n := asks
    exact ⟨.node .broken, by rw [run, copy_broken broken]; rfl, rfl⟩
  | setType m type =>
    obtain rfl : m = n := asks
    exact refused fun t h gone => congrArg Except.ok (if_pos gone)
  | setArg m i value =>
    obtain rfl : m = n := asks
    exact refused fun t h gone => if_pos gone
  | addArg m value =>
    obtain rfl : m = n := asks
    exact refused fun t h gone => congrArg Except.ok (if_pos gone)
  | swap a b =>
    have either : (f.isBroken a || f.isBroken b) = true := by
      rcases asks with rfl | rfl
      · rw [broken, Bool.true_or]
      · rw [broken, Bool.or_true]
    exact ⟨.settled (some .brokenNode), by rw [run, Forest.swap, if_pos either]; rfl, rfl⟩
  | remove m =>
    obtain rfl : m = n := asks
    refine refused fun t h gone => ?_
    rw [Arena.remove, Arena.removalRefusal?, if_pos gone]
    rfl
  | adopt m below =>
    obtain rfl : m = n := asks
    exact ⟨.settled (some .brokenNode), by rw [run, adopt_broken broken]; rfl, rfl⟩

/-- No call makes use of a node of an earlier generation. -/
theorem Call.run_stale {i : Nat} {t : Arena} (own : n.arena = some i)
    (there : f.arenas[i]? = some t) (stale : n.handle.generation ≠ t.generation n.handle.index)
    {call : Call} (uses : call.Uses n) {reply : Reply}
    (ran : call.run f = .ok (g, reply)) : reply.Refuses := by
  have here : f.arena? n = some t := by rw [arena?, own]; exact there
  have broken : f.isBroken n = true := by
    rw [isBroken, here]
    exact Arena.isBroken_of_stale stale
  -- a call that starts with the node is refused, since the node is broken
  have first (asks : call.Asks n) : reply.Refuses := by
    obtain ⟨answer, answered, refuses⟩ := run_broken broken asks
    obtain ⟨-, rfl⟩ := Prod.mk.inj (Except.ok.inj (ran.symm.trans answered))
    exact refuses
  cases call with
  | plant | root | load | child | parent | next => exact uses.elim
  | addChild | insert | setType | setArg | addArg | remove | swap => exact first uses
  | copy m under =>
    -- otherwise the node is where the call puts something, and it is looked up later
    rcases uses with same | rfl
    · exact first same
    · obtain ⟨⟨u, k⟩, copied, same⟩ := Guarded.bind_eq_ok.mp ran
      obtain ⟨rfl, rfl⟩ := Prod.mk.inj (Except.ok.inj same)
      rw [Forest.copy] at copied
      split at copied
      · obtain ⟨-, rfl⟩ := Prod.mk.inj (Except.ok.inj copied)
        rfl
      split at copied
      · obtain ⟨-, rfl⟩ := Prod.mk.inj (Except.ok.inj copied)
        rfl
      obtain ⟨rose, -, grafted⟩ := Guarded.bind_eq_ok.mp copied
      obtain ⟨m, ran, gone⟩ := grow_broken broken fun t h gone => Arena.graft_broken rose gone
      obtain ⟨-, rfl⟩ := Prod.mk.inj (Except.ok.inj (grafted.symm.trans ran))
      exact gone
  | adopt above below =>
    rcases uses with same | rfl
    · exact first same
    · obtain ⟨⟨u, refusal⟩, adopted, same⟩ := Guarded.bind_eq_ok.mp ran
      obtain ⟨rfl, rfl⟩ := Prod.mk.inj (Except.ok.inj same)
      rw [Forest.adopt] at adopted
      split at adopted
      · obtain ⟨-, rfl⟩ := Prod.mk.inj (Except.ok.inj adopted)
        rfl
      next v home =>
        obtain ⟨⟨w, answer⟩, moved, same⟩ := Guarded.bind_eq_ok.mp adopted
        obtain ⟨-, rfl⟩ := Prod.mk.inj (Except.ok.inj same)
        -- as long as the arena above keeps its generations, the node is not there
        have dead (w : Arena) (kept : w.generations = v.generations) :
            w.isBroken (if above.arena == below.arena then below.handle else .broken) = true := by
          split
          · next same =>
            obtain rfl : v = t := by
              rw [arena?, eq_of_beq same, own] at home
              exact Option.some_inj.mp (home.symm.trans there)
            refine Arena.isBroken_of_stale fun current => stale ?_
            rw [current, Arena.generation, kept]
            rfl
          · exact Arena.isBroken_broken w
        have refused : answer = some .brokenNode := by
          rcases Arena.adopt_cases moved with ⟨-, -, refused⟩ | ⟨-, _, _, moves⟩
          · exact refused
          · exact moves.refused dead
        show (if _ then _ else _) = _
        rw [refused, broken, Bool.not_true, Bool.and_false, Bool.false_and]
        rfl

/-- A node that is there is what loading its saved index gives. -/
theorem Call.load_save (live : f.isBroken n = false) : ∃ i, n.arena = some i ∧
    (Call.load i (f.read n 0 Arena.save)).run f = .ok (f, .node n) := by
  rw [Forest.isBroken] at live
  split at live
  · next t here =>
    obtain ⟨i, own, there⟩ := arena_eq here
    obtain ⟨low, high, current⟩ := Arena.two_lt_size live
    refine ⟨i, own, ?_⟩
    have saved : f.read n 0 Arena.save = n.handle.index := by
      rw [Forest.read, here]
      exact if_neg (by rw [live]; decide)
    have loaded : t.load n.handle.index = n.handle := by
      rw [Arena.load, if_pos (by simp [Arena.hasRecord, low, high]), Arena.handle, current]
    rw [Call.run, saved, seek, there]
    dsimp only
    rw [loaded, ← own]
    rfl
  · cases live

end Forest

/-! ## Histories -/

/-- A forest, and the removals that led to it with the numbers of their arenas, the last one
first. -/
structure History where
  forest : Forest
  removals : List (Nat × Int)

namespace History

open Forest

variable {x y z : History} {n : ForestNode}

/-- A call that is answered leads to the next forest. -/
structure Step (x : History) (call : Call) (reply : Reply) (y : History) : Prop where
  ran : call.run x.forest = .ok (y.forest, reply)
  removals : y.removals = (call.removes x.forest reply).toList ++ x.removals

/-- Some calls lead from one forest to another. -/
def Reaches : History → History → Prop :=
  Relation.ReflTransGen fun x y => ∃ call reply, x.Step call reply y

/-- The history of no call at all. -/
def none : History := ⟨⟨#[]⟩, []⟩

/-- The generation of an index is the number of removals at it. -/
structure Counted (x : History) : Prop where
  generations : ∀ (i : Nat) (t : Arena), x.forest.arenas[i]? = some t →
    ∀ k, t.generation k = UInt32.ofNat (x.removals.count (i, k))
  inside : ∀ p ∈ x.removals, p.1 < x.forest.arenas.size

theorem counted_none : none.Counted := ⟨fun i t there => by simp [none] at there, nofun⟩

theorem Step.counted {call : Call} {reply : Reply} (step : x.Step call reply y)
    (counted : x.Counted) : y.Counted := by
  obtain ⟨counts, -⟩ := Call.run_counts step.ran
  refine ⟨?_, ?_⟩
  · intro i u there k
    rw [step.removals, List.count_append]
    by_cases old : i < x.forest.arenas.size
    · have before := Array.getElem?_eq_getElem old
      rw [counts.old i _ u before there k, counted.generations i _ before k]
      cases removed : call.removes x.forest reply with
      | none => simp
      | some p =>
        by_cases here : p = (i, k)
        · rw [if_pos (by rw [here]), here]
          simp [UInt32.ofNat_add, add_comm]
        · rw [if_neg (by simpa using here)]
          simp [here]
    · have absent : (i, k) ∉ (call.removes x.forest reply).toList ++ x.removals := by
        intro mem
        rcases List.mem_append.mp mem with mem | mem
        · exact old (counts.inside _ (Option.mem_toList.mp mem))
        · exact old (counted.inside _ mem)
      rw [counts.new i u (Nat.not_lt.mp old) there k, ← List.count_append,
        List.count_eq_zero_of_not_mem absent]
      rfl
  · intro p mem
    rw [step.removals] at mem
    rcases List.mem_append.mp mem with mem | mem
    · exact (counts.inside p (Option.mem_toList.mp mem)).trans_le counts.size
    · exact (counted.inside p mem).trans_le counts.size

theorem Step.size_le {call : Call} {reply : Reply} (step : x.Step call reply y) :
    x.forest.arenas.size ≤ y.forest.arenas.size := (Call.run_counts step.ran).1.size

theorem Reaches.counted (run : Reaches x y) (counted : x.Counted) : y.Counted := by
  induction run with
  | refl => exact counted
  | tail _ step ih =>
    obtain ⟨call, reply, step⟩ := step
    exact step.counted ih

theorem Reaches.later (run : Reaches x y) : x.forest.arenas.size ≤ y.forest.arenas.size ∧
    x.removals <:+ y.removals := by
  induction run with
  | refl => exact ⟨le_rfl, List.suffix_refl _⟩
  | tail _ step ih =>
    obtain ⟨call, reply, step⟩ := step
    exact ⟨ih.1.trans step.size_le, ih.2.trans ⟨_, step.removals.symm⟩⟩

/-- The generation of a removed node is an earlier one ever after. -/
theorem stale_of_removed (counted : x.Counted)
    (removed : x.Step (.remove n) (.settled Option.none) y) (later : Reaches y z)
    (few : ∀ p, z.removals.count p < 2 ^ 32) :
    ∃ i t, n.arena = some i ∧ z.forest.arenas[i]? = some t ∧
    n.handle ≠ .broken ∧ n.handle.generation ≠ t.generation n.handle.index := by
  obtain ⟨⟨g, refusal⟩, changed, same⟩ := Guarded.bind_eq_ok.mp removed.ran
  obtain ⟨-, same⟩ := Prod.mk.inj (Except.ok.inj same)
  have live := (remove_counts changed).2 (Reply.settled.inj same)
  rw [Forest.isBroken] at live
  split at live
  · next t here =>
    obtain ⟨i, own, there⟩ := arena_eq here
    obtain ⟨low, -, current⟩ := Arena.two_lt_size live
    obtain ⟨grown, more⟩ := later.later
    have inside : i < z.forest.arenas.size :=
      (Array.getElem?_eq_some_iff.mp there).1.trans_le (removed.size_le.trans grown)
    have after := Array.getElem?_eq_getElem inside
    refine ⟨i, _, own, after, fun none => ?_, ?_⟩
    · rw [none] at low
      exact absurd low (by decide)
    · have last :
        y.removals.count (i, n.handle.index) = x.removals.count (i, n.handle.index) + 1 := by
        rw [removed.removals, Call.removes, own]
        simp
      have larger := more.sublist.count_le (i, n.handle.index)
      have few := few (i, n.handle.index)
      rw [← current, counted.generations i t there,
        (later.counted (removed.counted counted)).generations i _ after]
      intro same
      have same := congrArg UInt32.toNat same
      rw [UInt32.toNat_ofNat_of_lt' (Nat.lt_of_le_of_lt (by omega) few),
        UInt32.toNat_ofNat_of_lt' few] at same
      omega
  · cases live

/-- **Handles of removed nodes do not come back.** A node that is there is what loading its saved
index gives. Once a node was removed, in every later state that less than 2 ^ 32 removals at any one
index lead to: its handle is broken and reads as a node of the type zero without arguments and
children; calls that start with it change nothing; whatever call tries to change something with it
is refused; and no call answers with it. -/
theorem removed_for_good (start : Reaches .none x)
    (removed : x.Step (.remove n) (.settled Option.none) y) (later : Reaches y z)
    (few : ∀ p, z.removals.count p < 2 ^ 32) :
    (∀ (f : Forest) (m : ForestNode), f.isBroken m = false → ∃ i, m.arena = some i ∧
      (Call.load i (f.read m 0 Arena.save)).run f = .ok (f, .node m)) ∧
    z.forest.isBroken n = true ∧ z.forest.read n 0 Arena.typeOf = 0 ∧
    z.forest.read n 0 Arena.argc = 0 ∧ z.forest.read n 0 Arena.amount = 0 ∧
    (∀ i, z.forest.read n (pure 0) (fun t h => t.arg h i) = .ok 0) ∧
    (∀ i, ∃ m, (Call.child n i).run z.forest = .ok (z.forest, .node m) ∧
      z.forest.isBroken m = true) ∧ (∀ call : Call, call.Asks n →
      ∃ reply, call.run z.forest = .ok (z.forest, reply) ∧ reply.Refuses) ∧
    (∀ call : Call, call.Uses n → ∀ g reply, call.run z.forest = .ok (g, reply) → reply.Refuses) ∧
    ∀ (call : Call) g m, call.run z.forest = .ok (g, .node m) → m ≠ n := by
  -- fewer than 2 ^ 32 removals cannot bring the generation of an index round to what it was
  obtain ⟨i, t, own, there, named, stale⟩ :=
    stale_of_removed (start.counted counted_none) removed later few
  have here : z.forest.arena? n = some t := by rw [arena?, own]; exact there
  have gone : t.isBroken n.handle = true := Arena.isBroken_of_stale stale
  have broken : z.forest.isBroken n = true := by rw [Forest.isBroken, here]; exact gone
  have reads {α : Type} (default : α) (query : Arena → Handle → α) :
    z.forest.read n default query = query t n.handle := by
    rw [Forest.read, here]
  refine ⟨?_, broken, ?_, ?_, ?_, ?_, ?_, ?_, ?_, ?_⟩
  · exact fun f m live => Call.load_save live
  · exact (reads 0 _).trans (if_pos gone)
  · exact (reads 0 _).trans (if_pos gone)
  · exact (reads 0 _).trans (if_pos gone)
  · intro k
    rw [reads]
    have none : t.argc n.handle = 0 := if_pos gone
    rw [Arena.arg, none]
    split
    · rfl
    · next inside => simp at inside; omega
  · intro k
    obtain ⟨m, walked, nowhere⟩ := walk_broken broken fun t h dead => Arena.child_of_broken dead k
    refine ⟨m, by rw [Call.run, walked]; rfl, ?_⟩
    rw [Forest.isBroken]
    split
    · rw [nowhere]
      exact Arena.isBroken_broken _
    · rfl
  · exact fun call asks => Call.run_broken broken asks
  · exact fun call uses g reply ran => Call.run_stale own there stale uses ran
  -- whatever a call answers with is of the generation in its arena, which is another one
  · intro call g m ran same
    obtain ⟨counts, current⟩ := Call.run_counts ran
    rw [same] at current
    rcases current n rfl with nowhere | ⟨j, u, owned, after, current⟩
    · exact named nowhere
    · obtain rfl := Option.some_inj.mp (own.symm.trans owned)
      have kept := counts.old i t u there after n.handle.index
      rw [Call.removes_node, if_neg (Option.some_ne_none _).symm] at kept
      exact stale (current.trans kept)

/-- The index of a removed node is used again by a longer record. -/
theorem removed_for_good_reused :
    ∃ (x y z : History) (g : Forest) (m n : ForestNode), Reaches .none x ∧
    x.Step (.remove n) (.settled Option.none) y ∧ Reaches y z ∧ (∀ p, z.removals.count p < 2 ^ 32) ∧
    n.handle.index = m.handle.index ∧
    (Call.addChild ⟨some 0, ⟨2, 0⟩⟩ 5 [8, 9]).run z.forest = .ok (g, .node m) ∧
    z.forest.isBroken n = true ∧ m ≠ n := by
  obtain ⟨d, made⟩ : ∃ d : History, d = ⟨⟨#[.new 0]⟩, []⟩ := ⟨_, rfl⟩
  obtain ⟨x, grown⟩ : ∃ x : History, x = ⟨⟨#[⟨#[0, 0, 1, 7, 0, -2, 1, 0, 0, 0], ∅⟩]⟩, []⟩ :=
    ⟨_, rfl⟩
  obtain ⟨y, gone⟩ : ∃ y : History, y =
      ⟨⟨#[⟨#[0, 0, 0, -2, 0], (∅ : Std.TreeMap Int UInt32).insert 7 1⟩]⟩, [(0, 7)]⟩ :=
    ⟨_, rfl⟩
  have planted : History.none.Step (.plant 0) (.node ⟨some 0, ⟨2, 0⟩⟩) d := by
    rw [made]
    exact ⟨rfl, rfl⟩
  have added : d.Step (.addChild ⟨some 0, ⟨2, 0⟩⟩ 1 []) (.node ⟨some 0, ⟨7, 0⟩⟩) x := by
    rw [made, grown]
    exact ⟨by cbv, rfl⟩
  have removed : x.Step (.remove ⟨some 0, ⟨7, 0⟩⟩) (.settled Option.none) y := by
    rw [grown, gone]
    exact ⟨by cbv, rfl⟩
  have start : Reaches .none x := .tail (.single ⟨_, _, planted⟩) ⟨_, _, added⟩
  have few : ∀ p, y.removals.count p < 2 ^ 32 := fun p => by
    refine Nat.lt_of_le_of_lt List.count_le_length ?_
    rw [gone]
    decide
  have again : (Call.addChild ⟨some 0, ⟨2, 0⟩⟩ 5 [8, 9]).run y.forest =
      .ok (⟨#[⟨#[0, 0, 1, 7, 0, -2, 5, 0, 0, 2, 8, 9], (∅ : Std.TreeMap Int UInt32).insert 7 1⟩]⟩,
      .node ⟨some 0, ⟨7, 1⟩⟩) := by
    rw [gone]
    cbv
  obtain ⟨-, broken, -, -, -, -, -, -, -, others⟩ := removed_for_good start removed .refl few
  exact ⟨x, y, y, _, ⟨some 0, ⟨7, 1⟩⟩, ⟨some 0, ⟨7, 0⟩⟩, start, removed, .refl, few, rfl, again,
    broken, others _ _ _ again⟩

end History

end BilingualC
