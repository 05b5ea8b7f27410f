import Mathlib
import BilingualC.Proofs.Lowering.Put
import BilingualC.Proofs.Session

/-!
# What a piece of code leaves alone

Appending a piece of code changes little beside the memory and the frames: the labels that are
placed in it get their addresses, the labels it jumps to become known, and the functions it calls
may get slots. The session changes in the displacements of its labels only.
-/

namespace BilingualC

/-! ## Sessions -/

/-- Two sessions that differ in the displacements of some labels only. -/
structure Session.Alike (labels : List Int) (s t : Session) : Prop where
  rest : t = { s with identifiers := t.identifiers }
  size : t.identifiers.size = s.identifiers.size
  entry :
    ∀ id, t.identifier id = { s.identifier id with displacement := (t.identifier id).displacement }
  displacement : ∀ id ∉ labels, (t.identifier id).displacement = (s.identifier id).displacement

namespace Session.Alike

variable {labels more : List Int} {s t u : Session}

theorem refl (s : Session) : s.Alike [] s := ⟨rfl, rfl, fun _ => rfl, fun _ _ => rfl⟩

theorem trans (first : s.Alike labels t) (second : t.Alike more u) :
    s.Alike (labels ++ more) u where
  rest := by
    rw [second.rest, first.rest]
  size := second.size.trans first.size
  entry id := by
    rw [second.entry id, first.entry id]
  displacement id out := by
    rw [List.mem_append, not_or] at out
    rw [second.displacement id out.2, first.displacement id out.1]

theorem tree (same : s.Alike labels t) : t.tree = s.tree := by rw [same.rest]
theorem types (same : s.Alike labels t) : t.types = s.types := by rw [same.rest]
theorem functions (same : s.Alike labels t) : t.functions = s.functions := by rw [same.rest]
theorem stringAt (same : s.Alike labels t) (i : Int) : t.stringAt i = s.stringAt i := by
  rw [same.rest]
  rfl
theorem main (same : s.Alike labels t) : t.main = s.main := by rw [same.rest]
theorem sizeOf (same : s.Alike labels t) (id : TypeId) : t.types.sizeOf id = s.types.sizeOf id := by
  rw [same.types]

theorem kind (same : s.Alike labels t) (id : Int) :
    (t.identifier id).kind = (s.identifier id).kind := by
  rw [same.entry id]

theorem type (same : s.Alike labels t) (id : Int) :
    (t.identifier id).type = (s.identifier id).type := by
  rw [same.entry id]

theorem functionAddress (same : s.Alike labels t) (number : Int) :
    t.functionAddress number = s.functionAddress number := by
  rw [Session.functionAddress, Session.functionAddress, same.functions]

end Session.Alike

open Lowering

namespace Lowering

theorem alike_changed {s : Session} {id : Int} {change : Identifier → Identifier}
    (keeps : ∀ entry, change entry = { entry with displacement := (change entry).displacement }) :
    s.Alike [id] (s.changed id change) where
  rest := rfl
  size := Session.size_changed
  entry k := by
    by_cases same : k = id
    · subst same
      by_cases inside : 0 < k ∧ k < s.identifiers.size
      · rw [Session.identifier_changed_same inside.1 inside.2]
        exact keeps _
      · rw [Session.identifier_of_out inside, Session.identifier_of_out (by simpa using inside)]
    · rw [Session.identifier_changed_ne same]
  displacement k out := by
    rw [Session.identifier_changed_ne (by simpa using out)]

theorem alike_sessionWith (s : Session) (id address : Int) :
    s.Alike [id] (sessionWith s id address) := by
  rw [sessionWith]
  split
  case h_1 t done =>
    obtain ⟨_, _, rfl⟩ := Session.changeIdentifier_eq_ok done
    exact alike_changed fun _ => rfl
  case h_2 => exact ⟨rfl, rfl, fun _ => rfl, fun _ _ => rfl⟩

theorem displacement_sessionWith {s : Session} {id : Int}
    (low : 0 < id) (high : id < s.identifiers.size) (address : Int) :
    ((sessionWith s id address).identifier id).displacement = address := by
  rw [sessionWith, Session.setDisplacement, Session.changeIdentifier_of_lt low.le high]
  exact congrArg Identifier.displacement (Session.identifier_changed_same low high)

end Lowering

/-! ## Labels and calls -/

/-- What happens to the labels, the calls and the session when code is appended that places some
labels, jumps to some labels and calls some functions. -/
structure Follows (labels gotos callees : List Int) (g h : Lowering) : Prop where
  failure : h.failure = g.failure
  session : g.session.Alike labels h.session
  address : ∀ id ∉ labels, (h.labelOf id).address = (g.labelOf id).address
  placed : ∀ id ∈ labels, (h.labelOf id).address.isSome = true
  marked : ∀ id ∈ labels, 0 < id → id < g.session.identifiers.size →
    (h.labelOf id).address = some (h.session.identifier id).displacement
  known : ∀ l ∈ h.labels, l.identifier ∈ g.labels.map (·.identifier) ∨ l.identifier ∈ gotos ∨
    l.identifier ∈ labels
  pending : ∀ e ∈ h.pendingCalls, e.1 ∈ g.pendingCalls.map (·.1) ∨ e.1 ∈ callees

namespace Follows

variable {ls gs cs ls' gs' cs' : List Int} {g h k : Lowering}

/-- A step that concerns the memory and the frames only. -/
theorem quiet (failure : h.failure = g.failure)
    (session : h.session = g.session) (labels : h.labels = g.labels)
    (calls : h.pendingCalls = g.pendingCalls) : Follows [] [] [] g h where
  failure := failure
  session := by rw [session]; exact .refl _
  address id _ := by rw [labelOf, labels, labelOf]
  placed := by simp
  marked := by simp
  known l mem := .inl (List.mem_map_of_mem (labels ▸ mem))
  pending e mem := .inl (List.mem_map_of_mem (calls ▸ mem))

theorem trans (first : Follows ls gs cs g h) (second : Follows ls' gs' cs' h k) :
    Follows (ls ++ ls') (gs ++ gs') (cs ++ cs') g k where
  failure := second.failure.trans first.failure
  session := first.session.trans second.session
  address id out := by
    rw [List.mem_append, not_or] at out
    rw [second.address id out.2, first.address id out.1]
  placed id mem := by
    by_cases later : id ∈ ls'
    · exact second.placed id later
    · rw [second.address id later]
      exact first.placed id ((List.mem_append.mp mem).resolve_right later)
  marked id mem low high := by
    by_cases later : id ∈ ls'
    · exact second.marked id later low (first.session.size ▸ high)
    · rw [second.address id later, second.session.displacement id later]
      exact first.marked id ((List.mem_append.mp mem).resolve_right later) low high
  known l mem := by
    simp only [List.mem_append]
    rcases second.known l mem with old | jumped | placed
    · obtain ⟨before, there, same⟩ := List.mem_map.mp old
      rcases first.known before there with known | jumped | placed
      · exact .inl (same ▸ known)
      · exact .inr (.inl (.inl (same ▸ jumped)))
      · exact .inr (.inr (.inl (same ▸ placed)))
    · exact .inr (.inl (.inr jumped))
    · exact .inr (.inr (.inr placed))
  pending e mem := by
    simp only [List.mem_append]
    rcases second.pending e mem with old | called
    · obtain ⟨before, there, same⟩ := List.mem_map.mp old
      rcases first.pending before there with known | called
      · exact .inl (same ▸ known)
      · exact .inr (.inl (same ▸ called))
    · exact .inr (.inr called)

theorem then_quiet (first : Follows ls gs cs g h) (second : Follows [] [] [] h k) :
    Follows ls gs cs g k := by
  have both := first.trans second
  rwa [List.append_nil, List.append_nil, List.append_nil] at both

theorem after_quiet (first : Follows [] [] [] g h) (second : Follows ls gs cs h k) :
    Follows ls gs cs g k :=
  first.trans second

theorem push (g : Lowering) (cells : List Int) : Follows [] [] [] g (g.push cells) :=
  quiet rfl rfl rfl rfl
theorem fork (g : Lowering) (op : Operation) : Follows [] [] [] g (g.fork op) :=
  quiet rfl rfl rfl rfl
theorem land (g : Lowering) (p target : Nat) : Follows [] [] [] g (g.land p target) :=
  quiet rfl rfl rfl rfl
theorem enter (g : Lowering) (f : JumpFrame) : Follows [] [] [] g (g.enter f) :=
  quiet rfl rfl rfl rfl
theorem testLoop (g : Lowering) : Follows [] [] [] g g.testLoop := quiet rfl rfl rfl rfl
theorem settle (g : Lowering) (target : Nat) : Follows [] [] [] g (g.settle target) :=
  quiet rfl rfl rfl rfl

theorem closeLoop (g : Lowering) (op : Operation) (start : Nat) :
    Follows [] [] [] g (g.closeLoop op start) :=
  quiet rfl rfl rfl rfl

theorem closeSwitch (g : Lowering) : Follows [] [] [] g g.closeSwitch := quiet rfl rfl rfl rfl

theorem openCase (g : Lowering) : Follows [] [] [] g g.openCase := by
  rw [Lowering.openCase]
  split <;> exact quiet rfl rfl rfl rfl

theorem closeCase (g : Lowering) (jumps : List Nat) : Follows [] [] [] g (g.closeCase jumps) :=
  quiet rfl rfl rfl rfl

theorem openDefault (g : Lowering) : Follows [] [] [] g g.openDefault := quiet rfl rfl rfl rfl

theorem dropAll (g : Lowering) (n : Nat) : Follows [] [] [] g (Lowering.dropAll n g) := by
  induction n generalizing g with
  | zero => exact quiet rfl rfl rfl rfl
  | succ n ih => exact (push g _).then_quiet (ih _)

theorem jumpTo (g : Lowering) (id : Int) : Follows [] [id] [] g (g.jumpTo id) := by
  rw [Lowering.jumpTo]
  cases known : (g.labelOf id).address with
  | some address =>
    exact ⟨rfl, .refl _, fun _ _ => rfl, by simp, by simp,
      fun l mem => .inl (List.mem_map_of_mem mem), fun e mem => .inl (List.mem_map_of_mem mem)⟩
  | none =>
    constructor
    case failure => rfl
    case session => exact .refl _
    case address =>
      intro other _
      by_cases same : other = id
      · subst same
        have found := labelOf_setLabel_same (g := g.fork .branch)
          (l := { g.labelOf other with waiting := (g.labelOf other).waiting ++ [g.here + 1] })
          (identifier_labelOf other)
        exact congrArg (·.address) found
      · rw [labelOf_setLabel_ne (by simpa [identifier_labelOf] using same)]
        rfl
    case placed => simp
    case marked => simp
    case pending => exact fun e mem => .inl (List.mem_map_of_mem mem)
    case known =>
      intro l mem
      rcases List.mem_cons.mp mem with rfl | old
      · exact .inr (.inl (by simp [identifier_labelOf]))
      · exact .inl (List.mem_map_of_mem (List.mem_of_mem_filter old))

theorem place (g : Lowering) (id : Int) : Follows [id] [] [] g (g.place id) := by
  have labels (k : Int) : (g.place id).labelOf k =
      (g.setLabel { g.labelOf id with address := some g.here, waiting := [] }).labelOf k := rfl
  constructor
  case failure => rfl
  case session => exact alike_sessionWith _ _ _
  case address =>
    intro k out
    rw [labels, labelOf_setLabel_ne (by simpa [identifier_labelOf] using out)]
  case placed =>
    intro k mem
    rw [List.mem_singleton] at mem
    rw [labels, labelOf_setLabel_same (by rw [identifier_labelOf, mem])]
    rfl
  case marked =>
    intro k mem low high
    rw [List.mem_singleton] at mem
    subst mem
    rw [labels, labelOf_setLabel_same (by rw [identifier_labelOf])]
    exact congrArg some (displacement_sessionWith low high _).symm
  case pending => exact fun e mem => .inl (List.mem_map_of_mem mem)
  case known =>
    intro l mem
    rcases List.mem_cons.mp mem with rfl | old
    · exact .inr (.inr (by simp [identifier_labelOf]))
    · exact .inl (List.mem_map_of_mem (List.mem_of_mem_filter old))

theorem callTo (g : Lowering) (number : Int) : Follows [] [] [number] g (g.callTo number) := by
  have keys : ∀ e ∈ (g.callTo number).pendingCalls, e.1 ∈ g.pendingCalls.map (·.1) ∨
    e.1 ∈ [number] := by
    intro e mem
    rw [Lowering.callTo] at mem
    split at mem
    · exact .inl (List.mem_map_of_mem mem)
    · rcases key_of_addPending mem with same | old
      · exact .inr (by simp [same])
      · exact .inl old
  have failure : (g.callTo number).failure = g.failure := by
    rw [Lowering.callTo]
    split <;> rfl
  constructor
  case failure => exact failure
  case session =>
    rw [session_callTo]
    exact .refl _
  case address =>
    intro id _
    rw [labelOf, labels_callTo, labelOf]
  case placed => simp
  case marked => simp
  case known => exact fun l mem => .inl (List.mem_map_of_mem (labels_callTo number ▸ mem))
  case pending => exact keys

end Follows

/-- Appending a piece of code places its labels, makes the labels known that it jumps to, and leaves
slots for the functions that it calls. -/
theorem follows_put (c : Piece) (g : Lowering) :
    Follows c.labels c.gotos c.callees g (c.put g) := by
  induction c generalizing g with
  | skip => exact .quiet rfl rfl rfl rfl
  | plain i operands => exact .push g _
  | text t => exact .push g _
  | call number => exact .callTo g number
  | seq c d first second => exact (first g).trans (second _)
  | choose t y n test yes no =>
    exact (((test g).then_quiet (.fork _ _)).trans (((yes _).then_quiet (.fork _ _)).then_quiet
      (.land _ _ _))).trans ((no _).then_quiet (.land _ _ _))
  | only t y test yes =>
    exact ((test g).then_quiet (.fork _ _)).trans ((yes _).then_quiet (.land _ _ _))
  | short op last l r left right =>
    exact (((left g).then_quiet (.push _ _)).then_quiet (.fork _ _)).trans
      (((right _).then_quiet (.push _ _)).then_quiet (.land _ _ _))
  | whileLoop t body test inside =>
    exact ((Follows.enter g _).after_quiet ((test _).then_quiet (.testLoop _))).trans
      (((inside _).then_quiet (.settle _ _)).then_quiet (.closeLoop _ _ _))
  | doWhile body t inside test =>
    exact ((Follows.enter g _).after_quiet ((inside _).then_quiet (.settle _ _))).trans
      ((test _).then_quiet (.closeLoop _ _ _))
  | forLoop t body step test inside next =>
    exact (((Follows.enter g _).after_quiet ((test _).then_quiet (.testLoop _))).trans
      ((inside _).then_quiet (.settle _ _))).trans ((next _).then_quiet (.closeLoop _ _ _))
  | endlessLoop body step inside next =>
    exact ((Follows.enter g _).after_quiet ((inside _).then_quiet (.settle _ _))).trans
      ((next _).then_quiet (.closeLoop _ _ _))
  | switch v body value inside =>
    exact ((Follows.enter g _).after_quiet (value _)).trans ((inside _).then_quiet (.closeSwitch _))
  | caseLabel v body value inside =>
    exact ((Follows.openCase g).after_quiet
      ((Follows.push _ _).after_quiet ((value _).then_quiet (.closeCase _ _)))).trans (inside _)
  | defaultLabel body inside => exact (Follows.openDefault g).after_quiet (inside _)
  | breaking => exact .quiet rfl rfl rfl rfl
  | continuing => exact (Follows.dropAll g _).then_quiet (.quiet rfl rfl rfl rfl)
  | goto id => exact .jumpTo g id
  | label id body inside => exact (Follows.place g id).trans (inside _)

end BilingualC
