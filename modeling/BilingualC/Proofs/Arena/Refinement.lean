import Mathlib
import BilingualC.Proofs.Arena.Adoption
import BilingualC.Proofs.Arena.Reading

/-!
# Arenas are trees

`Request` lists what can be done to an arena, and `Request.Effect` says what a request does to the
tree that the arena holds. An arena that any run of requests leads to holds exactly one tree, passes
its own check, and answers every further request with the effect on that tree (`Built.refines`).
-/

namespace BilingualC

namespace Arena

/-- The handles that the children of a node lead to. -/
inductive Under (t : Arena) (top : Handle) : Handle → Prop
  | self : Under t top top
  | child {n c : Handle} (k : Int) : Under t top n → t.child n k = .ok c → t.isBroken c = false →
      Under t top c

/-- A handle names a node of the tree. -/
def Reachable (t : Arena) (n : Handle) : Prop := t.Under t.root n

/-- A handle names a node of the tree or no node at all. -/
def Names (t : Arena) (n : Handle) : Prop := t.Reachable n ∨ t.isBroken n = true

/-- A broken handle that a new record without arguments would bring back to life: its index lies in
the record but is not the index of the record. -/
def Revives (t : Arena) (n : Handle) : Prop :=
  t.isBroken n = true ∧ t.generation n.index = n.generation ∧ rootIndex ≤ n.index ∧
    n.index < t.freshIndex

/-- The subtree that a handle names. -/
def named? (t : Arena) (r : Rose) (n : Handle) : Option Rose :=
  if t.isBroken n then none else r.nodes.find? (·.index == n.index)

/-- What can be done to an arena. -/
inductive Request where
  | addChild (n : Handle) (type : Int) (args : List Int)
  | addArg (n : Handle) (value : Int)
  | setArg (n : Handle) (i value : Int)
  | setType (n : Handle) (type : Int)
  | insert (n : Handle) (type argc : Int)
  | swap (a b : Handle)
  | remove (n : Handle)
  | adopt (above below : Handle)
  | copy (n under : Handle)

/-- What a request is answered with. -/
inductive Reply where
  | done
  | made (n : Handle)
  | refused (why : Refusal)

namespace Request

/-- The arena and the reply after an operation that may be refused. -/
@[simp] def settle (t : Arena) : Answer Arena → Arena × Reply
  | .ok t' => (t', .done)
  | .error why => (t, .refused why)

/-- Does what is requested. -/
@[simp] def apply (t : Arena) : Request → Guarded (Arena × Reply)
  | .addChild n type args => do
    let (t, new) ← t.addChild n type args
    return (t, .made new)
  | .addArg n value => return settle t (t.addArg n value)
  | .setArg n i value => return settle t (← t.setArg n i value)
  | .setType n type => return settle t (t.setType n type)
  | .insert n type argc => do
    let (t, new) ← t.insert n type argc
    return (t, .made new)
  | .swap a b => return settle t (← t.swap a b)
  | .remove n => return settle t (← t.remove n)
  | .adopt above below => do
    let (t, refusal) ← t.adopt above below
    return (t, (refusal.map .refused).getD .done)
  | .copy n under => do
    let (t, new) ← t.copy n under
    return (t, .made new)

/-- A request is made for nodes of the tree or broken handles. No record gets longer than a block
can be, a copy goes outside the copied subtree, and a broken node that is to be moved stays
broken. -/
def Admissible (t : Arena) : Request → Prop
  | .addChild n _ args => t.Names n ∧ (args.length : Int) ≤ largestBlock
  | .addArg n _ => t.Names n ∧ t.argc n < largestBlock
  | .setArg n _ _ => t.Names n
  | .setType n _ => t.Names n
  | .insert n _ argc => t.Names n ∧ 0 ≤ argc ∧ argc ≤ largestBlock
  | .swap a b => t.Names a ∧ t.Names b
  | .remove n => t.Names n
  | .adopt above below => t.Names above ∧ t.Names below ∧ ¬ t.Revives below
  | .copy n under => t.Names n ∧ t.Names under ∧ (t.isBroken n = false → ¬ t.Under n under)

/-- What a request does to the tree that an arena holds, and the reply to it. -/
@[simp] def Effect (t : Arena) (r r' : Rose) (reply : Reply) : Request → Prop
  | .addChild n type args =>
    match t.named? r n with
    | none => r' = r ∧ reply = .made .broken
    | some s =>
      r' = r.edit s.index (·.push (.node t.freshIndex type args [])) ∧ reply = .made
          (t.handle t.freshIndex)
  | .addArg n value =>
    match t.named? r n with
    | none => r' = r ∧ reply = .refused .brokenNode
    | some s =>
      if s.children.length = 0 ∧ s.index + 3 + s.args.length = t.size then
        r' = r.edit s.index (fun s => s.withArgs (s.args ++ [value])) ∧ reply = .done
      else r' = r ∧ reply = .refused (.closedRecord s.index)
  | .setArg n i value =>
    match t.named? r n with
    | none => r' = r ∧ reply = .refused .brokenNode
    | some s =>
      if 0 ≤ i ∧ i < s.args.length then
        r' = r.edit s.index (fun s => s.withArgs (s.args.set i.toNat value)) ∧ reply = .done
      else r' = r ∧ reply = .refused (.noArgument i s.index)
  | .setType n type =>
    match t.named? r n with
    | none => r' = r ∧ reply = .refused .brokenNode
    | some s => r' = r.edit s.index (·.withType type) ∧ reply = .done
  | .insert n type argc =>
    match t.named? r n with
    | none => r' = r ∧ reply = .made .broken
    | some s =>
      if s.index = rootIndex then r' = r ∧ reply = .made .broken
      else r' = r.edit s.index
          (fun s => .node t.freshIndex type (List.replicate argc.toNat 0) [s]) ∧
          reply = .made (t.handle t.freshIndex)
  | .swap a b =>
    match t.named? r a, t.named? r b with
    | some x, some y =>
      if x.index = y.index then r' = r ∧ reply = .done
      else if x.index = rootIndex ∨ y.index = rootIndex ∨ y.index ∈ x.indices ∨
          x.index ∈ y.indices then
        r' = r ∧ reply = .refused (.nestedNodes x.index y.index)
      else r' = r.exchange x y ∧ reply = .done
    | _, _ => r' = r ∧ reply = .refused .brokenNode
  | .remove n =>
    match t.named? r n with
    | none => r' = r ∧ reply = .refused .brokenNode
    | some s =>
      if s.index = rootIndex then r' = r ∧ reply = .refused .rootRemoval
      else r' = r.erase s.index ∧ reply = .done
  | .adopt above below =>
    match t.named? r above, t.named? r below with
    | some u, some b =>
      if u.index ∈ b.indices then r' = r ∧ reply = .refused (.nestedNodes t.freshIndex b.index)
      else r' = (r.erase b.index).edit u.index (·.push b) ∧ reply = .done
    | some _, none => r' = r ∧ (reply = .refused .brokenNode ∨ below = t.handle t.freshIndex)
    | none, _ => r' = r ∧ reply = .refused .brokenNode
  | .copy n under =>
    match t.named? r n, t.named? r under with
    | some s, some u =>
      ∃ c, c.shape = s.shape ∧ r' = r.edit u.index (·.push c) ∧ reply = .made (t.handle c.index)
    | _, _ => r' = r ∧ reply = .made .broken

end Request

/-- The arenas that some run of requests leads to. -/
inductive Built (rootType : Int) : Arena → Prop
  | new : Built rootType (.new rootType)
  | step {t t' : Arena} {request : Request} {reply : Reply} :
    Built rootType t → request.Admissible t → request.apply t = .ok (t', reply) → Built rootType t'

variable {t : Arena} {r : Rose}

/-! ## Handles -/

theorem Has.under {s x : Rose} (h : t.Has s) (mem : x ∈ s.nodes) {top : Handle}
    (start : t.Under top (t.handle s.index)) : t.Under top (t.handle x.index) := by
  induction s using Rose.induction_on with
  | step i type args children ih =>
    rw [Rose.nodes_eq] at mem
    rcases List.mem_cons.mp mem with rfl | below
    · exact start
    · obtain ⟨c, hc, inside⟩ := List.mem_flatMap.mp below
      obtain ⟨k, bound, rfl⟩ := List.getElem_of_mem hc
      have child := h.child hc
      exact ih _ hc child inside (.child k start (h.child_at bound) child.isBroken)

/-- The handles that name nodes are the current handles of the indices of the tree. -/
theorem Holds.reachable_iff (h : t.Holds r) {n : Handle} :
    t.Reachable n ↔ ∃ s ∈ r.nodes, n = t.handle s.index := by
  have root : t.root = t.handle r.index := by rw [Arena.root, h.root]
  constructor
  · intro reach
    induction reach with
    | self => exact ⟨r, r.mem_nodes_self, root⟩
    | @child n c k above child live ih =>
      obtain ⟨s, hs, rfl⟩ := ih
      obtain ⟨fs, rfl⟩ := Rose.exists_fill hs
      have has := h.subtree
      by_cases range : k < 0 ∨ (s.children.length : Int) ≤ k
      · rw [Arena.child, has.amount, if_pos (by simpa using range)] at child
        obtain rfl : Handle.broken = c := Except.ok.inj child
        rw [isBroken_broken] at live
        exact absurd live (by decide)
      · obtain ⟨j, rfl⟩ := Int.eq_ofNat_of_zero_le (a := k) (by omega)
        have bound : j < s.children.length := by omega
        rw [has.child_at bound] at child
        exact ⟨s.children[j], Rose.mem_nodes_fill fs (Rose.mem_nodes_child (List.getElem_mem bound)
          (Rose.mem_nodes_self _)), (Except.ok.inj child).symm⟩
  · rintro ⟨s, hs, rfl⟩
    exact h.has.under hs (root ▸ .self)

theorem Holds.named {fs : List Frame} {s : Rose} (h : t.Holds (Rose.fill fs s)) :
    t.named? (Rose.fill fs s) (t.handle s.index) = some s := by
  rw [named?, h.isBroken]
  have found : ((Rose.fill fs s).nodes.find? (·.index == s.index)).isSome :=
    List.find?_isSome.mpr ⟨s, Rose.mem_nodes_fill fs s.mem_nodes_self, by simp⟩
  obtain ⟨x, hx⟩ := Option.isSome_iff_exists.mp found
  have index : x.index = s.index := by simpa using List.find?_some hx
  obtain ⟨gs, place⟩ := Rose.exists_fill (List.mem_of_find?_eq_some hx)
  obtain ⟨-, rfl⟩ := h.unique place index.symm
  exact hx

/-- A handle in use is broken or names a subtree in its place. -/
theorem Holds.names (h : t.Holds r) {n : Handle} (names : t.Names n) :
    t.isBroken n = true ∧ t.named? r n = none ∨
      ∃ s fs, n = t.handle s.index ∧ r = Rose.fill fs s ∧ t.named? r n = some s := by
  rcases names with reach | broken
  · obtain ⟨s, hs, rfl⟩ := h.reachable_iff.mp reach
    obtain ⟨fs, rfl⟩ := Rose.exists_fill hs
    exact .inr ⟨s, fs, rfl, rfl, h.named⟩
  · exact .inl ⟨broken, by rw [named?, if_pos broken]⟩

end Arena

/-! ## Lengths of records -/

namespace Rose

theorem fits_iff {r : Rose} :
    r.Fits ↔ (r.args.length : Int) ≤ largestBlock ∧ ∀ c ∈ r.children, c.Fits := by
  constructor
  · exact fun h => ⟨h r r.mem_nodes_self, fun c hc => h.child hc⟩
  · rintro ⟨own, below⟩ x hx
    rw [nodes_eq] at hx
    rcases List.mem_cons.mp hx with rfl | inside
    · exact own
    · obtain ⟨c, hc, hx⟩ := List.mem_flatMap.mp inside
      exact below c hc x hx

theorem Fits.alter {r : Rose} {change : Int → Option (Rose → Rose)} (h : r.Fits)
    (each : ∀ x ∈ r.nodes, ∀ f, change x.index = some f → (f x).Fits) : (r.alter change).Fits := by
  induction r using Rose.induction_on with
  | step i type args children ih =>
    cases here : change i with
    | some f =>
      rw [alter_of_some (r := node i type args children) here]
      exact each _ (mem_nodes_self _) f here
    | none =>
      rw [alter_of_none (r := node i type args children) here]
      refine fits_iff.2 ⟨(fits_iff.1 h).1, fun c hc => ?_⟩
      obtain ⟨d, hd, rfl⟩ := List.mem_map.mp hc
      exact ih d hd (h.child hd) fun x hx => each x (mem_nodes_child hd hx)

theorem Fits.edit {r : Rose} {i : Int} {f : Rose → Rose} (h : r.Fits)
    (each : ∀ x ∈ r.nodes, x.index = i → (f x).Fits) : (r.edit i f).Fits := by
  refine h.alter fun x hx g hg => ?_
  split at hg
  · rename_i here
    exact Option.some_inj.mp hg ▸ each x hx here
  · cases hg

theorem Fits.exchange {r a b : Rose} (h : r.Fits) (ha : a.Fits) (hb : b.Fits) :
    (r.exchange a b).Fits := by
  refine h.alter fun x hx g hg => ?_
  unfold swapping at hg
  split at hg
  · exact Option.some_inj.mp hg ▸ hb
  · split at hg
    · exact Option.some_inj.mp hg ▸ ha
    · cases hg

theorem Fits.erase {r : Rose} (h : r.Fits) (i : Int) : (r.erase i).Fits := by
  induction r using Rose.induction_on with
  | step j type args children ih =>
    have siblings : ∀ cs : List Rose, (∀ c ∈ cs, c ∈ children) → ∀ c ∈ eraseAll i cs, c.Fits := by
      intro cs sub
      induction cs with
      | nil => simp
      | cons d cs ihs =>
        have rest := ihs fun c hc => sub c (by simp [hc])
        rw [eraseAll_cons]
        split
        · exact rest
        · intro c hc
          rcases List.mem_cons.mp hc with rfl | inTail
          · exact ih d (sub d (by simp)) (h.child (sub d (by simp)))
          · exact rest c inTail
    rw [erase_eq]
    exact fits_iff.2 ⟨(fits_iff.1 h).1, siblings children fun c hc => hc⟩

theorem Fits.push {s c : Rose} (hs : s.Fits) (hc : c.Fits) : (s.push c).Fits := by
  refine fits_iff.2 ⟨(fits_iff.1 hs).1, fun d hd => ?_⟩
  rcases List.mem_append.mp hd with old | new
  · exact hs.child old
  · exact List.mem_singleton.mp new ▸ hc

theorem Fits.sub {r s : Rose} (h : r.Fits) (mem : s ∈ r.nodes) : s.Fits := by
  obtain ⟨fs, rfl⟩ := exists_fill mem
  exact fun x hx => h x (mem_nodes_fill fs hx)

/-- Trees of one shape have records of the same lengths. -/
theorem Fits.of_shape {r s : Rose} (h : r.Fits) (same : s.shape = r.shape) : s.Fits := by
  induction r using Rose.induction_on generalizing s with
  | step i type args children ih =>
    obtain ⟨j, type', args', children'⟩ := s
    rw [shape, shape] at same
    obtain ⟨-, -, rfl, shapes⟩ := Rose.node.inj same
    refine fits_iff.2 ⟨(fits_iff.1 h).1, ?_⟩
    have siblings : ∀ cs ds : List Rose, (∀ c ∈ cs, c ∈ children) →
        Rose.shapes ds = Rose.shapes cs → ∀ d ∈ ds, d.Fits := by
      intro cs ds sub eq
      induction ds generalizing cs with
      | nil => simp
      | cons d ds ihs =>
        cases cs with
        | nil => simp [Rose.shapes] at eq
        | cons c cs =>
          rw [Rose.shapes, Rose.shapes] at eq
          obtain ⟨first, rest⟩ := List.cons.inj eq
          intro x hx
          rcases List.mem_cons.mp hx with rfl | inTail
          · exact ih c (sub c (by simp)) (h.child (sub c (by simp))) first
          · exact ihs cs (fun y hy => sub y (by simp [hy])) rest x inTail
    exact siblings children children' (fun c hc => hc) shapes

end Rose

namespace Arena

variable {t : Arena} {r : Rose}

/-! ## Nodes that were left behind -/

/-- Removed nodes whose records are still there, with the links after them. No node of the tree
leads to their subtrees any more. -/
abbrev Orphans := List (Int × Rose)

namespace Orphans

/-- The blocks of the removed nodes and their subtrees. -/
def blocks (o : Orphans) : List Block := o.flatMap fun p => p.2.blocks p.1

/-- The indices of the nodes below removed nodes. -/
def indices (o : Orphans) : List Int := o.flatMap fun p => p.2.children.flatMap Rose.indices

theorem exists_block {o : Orphans} {i : Int} (mem : i ∈ o.indices) :
    ∃ b ∈ o.blocks, b.index = i := by
  obtain ⟨⟨next, s⟩, hp, mem⟩ := List.mem_flatMap.mp mem
  have inside : i ∈ (s.blocks next).map Block.index := by
    rw [Rose.map_index_blocks, ← Rose.indices, Rose.indices_eq]
    exact List.mem_cons_of_mem _ mem
  obtain ⟨b, hb, same⟩ := List.mem_map.mp inside
  exact ⟨b, List.mem_flatMap.mpr ⟨_, hp, hb⟩, same⟩

end Orphans

/-- The nodes that were left behind lie before the next record. -/
theorem HoldsBeside.orphan_lt {o : Orphans} (h : t.HoldsBeside r o.blocks) {i : Int}
    (mem : i ∈ o.indices) : i < t.freshIndex := by
  obtain ⟨b, hb, rfl⟩ := Orphans.exists_block mem
  have high := (h.all.held b (List.mem_append_right _ hb)).high
  unfold freshIndex
  omega

/-! ## Steps -/

/-- How a request is answered: as its effect on the tree says, and the nodes that stay keep their
handles. No node is lost but one that is removed. -/
structure Answered (t : Arena) (r : Rose) (o : Orphans) (request : Request) (t' : Arena)
    (reply : Reply) (r' : Rose) (o' : Orphans) : Prop where
  ran : request.apply t = .ok (t', reply)
  holds : t'.HoldsBeside r' o'.blocks
  fits : r'.Fits
  effect : request.Effect t r r' reply
  kept : ∀ i ∈ r.indices, i ∈ r'.indices → t'.generation i = t.generation i
  alive : ∀ i, i ∈ r.indices ∨ i ∈ o.indices →
    ((i ∈ r'.indices ∨ i ∈ o'.indices) ∧ t'.generation i = t.generation i) ∨
      (request = .remove (t.handle i) ∧ reply = .done)
  made : ∀ n, reply = .made n → n = .broken ∨ (n.index ∈ r'.indices ∧ n = t'.handle n.index)

/-- A request is answered as its effect on the tree says. -/
def Answers (t : Arena) (r : Rose) (o : Orphans) (request : Request) : Prop :=
  ∃ t' reply r' o', t.Answered r o request t' reply r' o'

variable {o : Orphans}

/-- A request that changes nothing. -/
theorem HoldsBeside.unchanged (h : t.HoldsBeside r o.blocks) (fits : r.Fits) {request : Request}
    (reply : Reply) (ran : request.apply t = .ok (t, reply)) (effect : request.Effect t r r reply)
    (made : ∀ n, reply = .made n → n = .broken) : t.Answers r o request :=
  ⟨t, reply, r, o, ran, h, fits, effect, fun _ _ _ => rfl, fun _ mem => .inl ⟨mem, rfl⟩,
    fun n same => .inl (made n same)⟩

/-- A request that changes a subtree in its place and loses no node. -/
theorem Answered.in_place {t' : Arena} {reply : Reply} {request : Request}
    {fs : List Frame} {s s' : Rose} (ran : request.apply t = .ok (t', reply))
    (holds : t'.HoldsBeside (Rose.fill fs s') o.blocks) (fits : (Rose.fill fs s').Fits)
    (effect : request.Effect t (Rose.fill fs s) (Rose.fill fs s') reply)
    (generations : ∀ i, t'.generation i = t.generation i) (more : s.indices ⊆ s'.indices)
    (made : ∀ n, reply = .made n → n.index ∈ s'.indices ∧ n = t'.handle n.index) :
    t.Answered (Rose.fill fs s) o request t' reply (Rose.fill fs s') o := by
  refine ⟨ran, holds, fits, effect, fun i _ _ => generations i,
    fun i mem => .inl ⟨mem.imp_left fun inside => ?_, generations i⟩, fun n same => .inr ?_⟩
  · refine (Rose.indices_fill fs s').symm.subset ?_
    exact (List.mem_append.mp ((Rose.indices_fill fs s).subset inside)).elim
      (List.mem_append_left _) fun own => List.mem_append_right _ (more own)
  · exact ⟨(Rose.indices_fill fs s').symm.subset (List.mem_append_right _ (made n same).1),
      (made n same).2⟩

theorem HoldsBeside.answers_addChild (h : t.HoldsBeside r o.blocks) (fits : r.Fits)
    {n : Handle} (names : t.Names n) (type : Int) {args : List Int}
    (short : (args.length : Int) ≤ largestBlock) : t.Answers r o (.addChild n type args) := by
  rcases h.holds.names names with ⟨broken, none⟩ | ⟨s, fs, rfl, rfl, found⟩
  · refine h.unchanged fits (.made .broken) ?_ (by simp [Request.Effect, none]) fun n same =>
      (Reply.made.inj same).symm
    simp [Request.apply, Arena.addChild, broken, bind, Except.bind, pure, Except.pure]
  · obtain ⟨t', ran, holds, -, generations⟩ := h.addChild type args
    have edited := Rose.edit_fill h.holds.nodup (·.push (.node t.freshIndex type args []))
    have handle : t'.handle t.freshIndex = t.handle t.freshIndex := by
      simp only [Arena.handle, generations]
    refine ⟨t', .made (t'.handle t.freshIndex), _, o, .in_place ?_ holds ?_ ?_ generations ?_ ?_⟩
    · simp [Request.apply, ran, bind, Except.bind, pure, Except.pure]
    · exact edited ▸ fits.edit fun x hx _ => (fits.sub hx).push (Rose.fits_iff.2 ⟨short, by simp⟩)
    · simp [Request.Effect, found, handle, edited]
    · exact Rose.indices_push s _ ▸ List.subset_append_left ..
    · rintro n ⟨⟩
      exact ⟨Rose.indices_push s _ ▸ List.mem_append_right _ (Rose.index_mem_indices _), rfl⟩

theorem HoldsBeside.answers_addArg (h : t.HoldsBeside r o.blocks)
    (fits : r.Fits) {n : Handle} (names : t.Names n) (value : Int)
    (short : t.argc n < largestBlock) : t.Answers r o (.addArg n value) := by
  rcases h.holds.names names with ⟨broken, none⟩ | ⟨s, fs, rfl, rfl, found⟩
  · refine h.unchanged fits (.refused .brokenNode) ?_ (by simp [Request.Effect, none]) fun _ =>
      Reply.noConfusion
    simp [Request.apply, Arena.addArg, broken, Request.settle, pure, Except.pure]
  · by_cases open' : s.children.length = 0 ∧ s.index + 3 + s.args.length = t.size
    · obtain ⟨t', ran, holds, -, generations⟩ :=
        h.addArg (List.length_eq_zero_iff.mp open'.1) open'.2 value
      have edited := Rose.edit_fill h.holds.nodup (fun s => s.withArgs (s.args ++ [value]))
      refine ⟨t', .done, _, o, .in_place ?_ holds ?_ ?_ generations ?_ fun _ => Reply.noConfusion⟩
      · simp [Request.apply, ran, Request.settle, pure, Except.pure]
      · refine edited ▸ fits.edit fun x hx index => ?_
        obtain ⟨gs, place⟩ := Rose.exists_fill hx
        obtain ⟨-, rfl⟩ := h.holds.unique place index.symm
        rw [h.holds.subtree.argc] at short
        refine Rose.fits_iff.2 ⟨?_, (Rose.fits_iff.1 (fits.sub hx)).2⟩
        simp only [Rose.withArgs, Rose.args_node, List.length_append, List.length_singleton]
        push_cast
        omega
      · rw [Request.Effect, found]
        dsimp only
        rw [if_pos open', edited]
        exact ⟨rfl, rfl⟩
      · rw [Rose.indices_eq, Rose.indices_eq]
        exact List.Subset.refl _
    · refine h.unchanged fits (.refused (.closedRecord s.index)) ?_ ?_ fun _ => Reply.noConfusion
      · have closed : (t.amount (t.handle s.index) != 0 ||
            (t.handle s.index).index + 3 + t.argc (t.handle s.index) != t.size) = true := by
          rw [h.holds.subtree.amount, h.holds.subtree.argc]
          simp only [Bool.or_eq_true, bne_iff_ne, ne_eq, Nat.cast_eq_zero, index_handle]
          exact not_and_or.mp open'
        simp only [Request.apply, Arena.addArg, h.holds.isBroken, closed, if_true]
        rfl
      · rw [Request.Effect, found]
        dsimp only
        rw [if_neg open']
        exact ⟨rfl, rfl⟩

theorem HoldsBeside.answers_setArg (h : t.HoldsBeside r o.blocks) (fits : r.Fits) {n : Handle}
    (names : t.Names n) (i value : Int) : t.Answers r o (.setArg n i value) := by
  rcases h.holds.names names with ⟨broken, none⟩ | ⟨s, fs, rfl, rfl, found⟩
  · refine h.unchanged fits (.refused .brokenNode) ?_ (by simp [Request.Effect, none]) fun _ =>
      Reply.noConfusion
    simp [Request.apply, Arena.setArg, broken, Request.settle, bind, Except.bind, pure, Except.pure]
  · by_cases inside : 0 ≤ i ∧ i < s.args.length
    · obtain ⟨k, rfl⟩ := Int.eq_ofNat_of_zero_le inside.1
      obtain ⟨t', ran, holds, -, generations⟩ := h.setArg (k := k) (by omega) value
      have edited := Rose.edit_fill h.holds.nodup (fun s => s.withArgs (s.args.set k value))
      refine ⟨t', .done, _, o, .in_place ?_ holds ?_ ?_ generations ?_ fun _ => Reply.noConfusion⟩
      · simp [Request.apply, ran, Request.settle, bind, Except.bind, pure, Except.pure]
      · refine edited ▸ fits.edit fun x hx _ =>
          Rose.fits_iff.2 ⟨?_, (Rose.fits_iff.1 (fits.sub hx)).2⟩
        simpa [Rose.withArgs] using (Rose.fits_iff.1 (fits.sub hx)).1
      · rw [Request.Effect, found]
        dsimp only
        rw [if_pos inside, Int.toNat_natCast, edited]
        exact ⟨rfl, rfl⟩
      · rw [Rose.indices_eq, Rose.indices_eq]
        exact List.Subset.refl _
    · refine h.unchanged fits (.refused (.noArgument i s.index)) ?_ ?_ fun _ => Reply.noConfusion
      · have outside : (decide (i < 0) || decide (t.argc (t.handle s.index) ≤ i)) = true := by
          rw [h.holds.subtree.argc]
          simp only [Bool.or_eq_true, decide_eq_true_eq]
          omega
        simp only [Request.apply, Arena.setArg, h.holds.isBroken, outside, if_true]
        rfl
      · rw [Request.Effect, found]
        dsimp only
        rw [if_neg inside]
        exact ⟨rfl, rfl⟩

theorem HoldsBeside.answers_setType (h : t.HoldsBeside r o.blocks) (fits : r.Fits) {n : Handle}
    (names : t.Names n) (type : Int) : t.Answers r o (.setType n type) := by
  rcases h.holds.names names with ⟨broken, none⟩ | ⟨s, fs, rfl, rfl, found⟩
  · refine h.unchanged fits (.refused .brokenNode) ?_ (by simp [Request.Effect, none]) fun _ =>
      Reply.noConfusion
    simp [Request.apply, Arena.setType, broken, Request.settle, pure, Except.pure]
  · obtain ⟨t', ran, holds, -, generations⟩ := h.setType type
    have edited := Rose.edit_fill h.holds.nodup (·.withType type)
    refine ⟨t', .done, _, o, .in_place ?_ holds ?_ ?_ generations ?_ fun _ => Reply.noConfusion⟩
    · simp [Request.apply, ran, Request.settle, pure, Except.pure]
    · refine edited ▸ fits.edit fun x hx _ => ?_
      have own := Rose.fits_iff.1 (fits.sub hx)
      exact Rose.fits_iff.2 ⟨own.1, own.2⟩
    · simp [Request.Effect, found, edited]
    · rw [Rose.indices_eq, Rose.indices_eq]
      exact List.Subset.refl _

theorem HoldsBeside.answers_insert (h : t.HoldsBeside r o.blocks) (fits : r.Fits) {n : Handle}
    (names : t.Names n) (type : Int) {argc : Int} (low : 0 ≤ argc) (high : argc ≤ largestBlock) :
    t.Answers r o (.insert n type argc) := by
  rcases h.holds.names names with ⟨broken, none⟩ | ⟨s, fs, rfl, rfl, found⟩
  · refine h.unchanged fits (.made .broken) ?_ (by simp [Request.Effect, none]) fun n same =>
      (Reply.made.inj same).symm
    simp [Request.apply, Arena.insert, broken, bind, Except.bind, pure, Except.pure]
  · cases fs with
    | nil =>
      have root : s.index = rootIndex := h.holds.root
      refine h.unchanged fits (.made .broken) ?_ (by rw [Request.Effect, found]; simp [root])
        fun n same => (Reply.made.inj same).symm
      simp [Request.apply, Arena.insert, root, bind, Except.bind, pure, Except.pure]
    | cons f fs =>
      obtain ⟨k, rfl⟩ := Int.eq_ofNat_of_zero_le low
      obtain ⟨t', ran, holds, -, generations⟩ := h.insert type high
      have edited :=
        Rose.edit_fill h.holds.nodup (fun s => .node t.freshIndex type (List.replicate k 0) [s])
      have handle : t'.handle t.freshIndex = t.handle t.freshIndex := by
        simp only [Arena.handle, generations]
      refine ⟨t', .made (t'.handle t.freshIndex), _, o, .in_place ?_ holds ?_ ?_ generations ?_ ?_⟩
      · simp [Request.apply, ran, bind, Except.bind, pure, Except.pure]
      · refine edited ▸ fits.edit fun x hx _ => Rose.fits_iff.2 ⟨by simpa using high, ?_⟩
        simpa using fits.sub hx
      · rw [Request.Effect, found]
        dsimp only
        rw [if_neg h.holds.index_ne_root, Int.toNat_natCast, edited]
        exact ⟨rfl, by rw [handle]⟩
      · exact fun i mem => Rose.indices_child (List.mem_singleton_self s) mem
      · rintro n ⟨⟩
        exact ⟨Rose.index_mem_indices _, rfl⟩

theorem HoldsBeside.answers_swap (beside : t.HoldsBeside r o.blocks) (fits : r.Fits) {a b : Handle}
    (namesA : t.Names a) (namesB : t.Names b) : t.Answers r o (.swap a b) := by
  have h := beside.holds
  have refuse : (t.isBroken a || t.isBroken b) = true →
      Request.apply t (.swap a b) = .ok (t, .refused .brokenNode) := by
    intro broken
    simp [Request.apply, Arena.swap, swapRefusal?, broken, Request.settle, bind, Except.bind, pure,
      Except.pure]
  rcases h.names namesA with ⟨broken, none⟩ | ⟨x, fs, rfl, placeA, foundA⟩
  · exact beside.unchanged fits _ (refuse (by simp [broken]))
      (by simp [Request.Effect, none]) fun _ => Reply.noConfusion
  rcases h.names namesB with ⟨broken, none⟩ | ⟨y, gs, rfl, placeB, foundB⟩
  · exact beside.unchanged fits _ (refuse (by simp [broken]))
      (by simp [Request.Effect, foundA, none]) fun _ => Reply.noConfusion
  have asked :=
    (show t.Holds (Rose.fill fs x) from placeA ▸ h).swapRefusal (placeA.symm.trans placeB)
  -- the guard for a node and itself comes before all others, the root included
  by_cases same : x.index = y.index
  · rw [if_pos same] at asked
    refine beside.unchanged fits .done ?_ ?_ fun _ => Reply.noConfusion
    · have stays : t.exchange (t.handle x.index) (t.handle y.index) = .ok t := by
        rw [Arena.exchange, if_pos (by simp [same])]
        rfl
      simp only [Request.apply, Arena.swap, asked, stays, bind, Except.bind]
      rfl
    · rw [Request.Effect, foundA, foundB]
      dsimp only
      rw [if_pos same]
      exact ⟨rfl, rfl⟩
  rw [if_neg same] at asked
  by_cases nested : x.index = rootIndex ∨ y.index = rootIndex ∨ y.index ∈ x.indices ∨
    x.index ∈ y.indices
  · rw [if_pos nested] at asked
    refine beside.unchanged fits (.refused (.nestedNodes x.index y.index)) ?_ ?_ fun _ =>
      Reply.noConfusion
    · simp [Request.apply, Arena.swap, asked, Request.settle, bind, Except.bind, pure, Except.pure]
    · rw [Request.Effect, foundA, foundB]
      dsimp only
      rw [if_neg same, if_pos nested]
      exact ⟨rfl, rfl⟩
  · rw [if_neg nested] at asked
    have parted := not_or.mp (not_or.mp (not_or.mp nested).2).2
    obtain ⟨t', ran, holds, perm, -, generations⟩ :=
      beside.exchange_places placeA placeB parted.1 parted.2
    refine ⟨t', .done, r.exchange x y, o, ?_, holds, ?_, ?_, ?_, ?_, ?_⟩
    · simp [Request.apply, Arena.swap, asked, ran, Request.settle, bind, Except.bind, pure,
        Except.pure]
    · exact fits.exchange (fits.sub (placeA ▸ Rose.mem_nodes_fill fs x.mem_nodes_self))
        (fits.sub (placeB ▸ Rose.mem_nodes_fill gs y.mem_nodes_self))
    · rw [Request.Effect, foundA, foundB]
      dsimp only
      rw [if_neg same, if_neg nested]
      exact ⟨rfl, rfl⟩
    · exact fun i _ _ => generations i
    · exact fun i mem =>
        .inl ⟨mem.imp_left fun inside => perm.symm.subset inside, generations i⟩
    · exact fun _ => Reply.noConfusion

theorem HoldsBeside.answers_remove (beside : t.HoldsBeside r o.blocks) (fits : r.Fits) {n : Handle}
    (names : t.Names n) : t.Answers r o (.remove n) := by
  have h := beside.holds
  rcases h.names names with ⟨broken, none⟩ | ⟨s, fs, rfl, rfl, found⟩
  · refine beside.unchanged fits (.refused .brokenNode) ?_ (by simp [Request.Effect, none]) fun _ =>
      Reply.noConfusion
    simp [Request.apply, Arena.remove, removalRefusal?, broken, Request.settle, bind, Except.bind,
      pure, Except.pure]
  · cases fs with
    | nil =>
      have root : s.index = rootIndex := h.root
      have refusal : t.removalRefusal? (t.handle s.index) = some .rootRemoval := by
        rw [removalRefusal?, h.subtree.isBroken]
        simp [root]
      refine beside.unchanged fits (.refused .rootRemoval) ?_
        (by rw [Request.Effect, found]; simp [root]) fun _ => Reply.noConfusion
      simp only [Request.apply, Arena.remove, refusal]
      rfl
    | cons f fs =>
      obtain ⟨t', own, ran, holds, given, generations⟩ := beside.detach
      have erased := Rose.erase_fill h.nodup
      -- the record stays beside the tree with its children, unless it was last and had none
      obtain ⟨left, blocks, children⟩ : ∃ left : Orphans, (left ++ o).blocks = own ++ o.blocks ∧
          left.indices = s.children.flatMap Rose.indices := by
        split at given
        · next bare => exact ⟨[], by rw [given.1]; rfl, by rw [bare.1]; rfl⟩
        · exact ⟨[(f.link, s)], by rw [given]; rfl, List.append_nil _⟩
      refine ⟨t', .done, _, left ++ o, ?_, erased ▸ blocks ▸ holds, fits.erase s.index, ?_,
        fun i _ mem => generations i ?_, fun i mem => ?_, fun _ => Reply.noConfusion⟩
      · simp [Request.apply, Arena.remove, removalRefusal_place h, ran, Request.settle, bind,
          Except.bind, pure, Except.pure]
      · rw [Request.Effect, found]
        dsimp only
        rw [if_neg h.index_ne_root]
        exact ⟨rfl, rfl⟩
      · rintro rfl
        refine Rose.not_mem_erase ?_ mem
        rw [h.root]
        exact h.index_ne_root.symm
      -- the index of the removed node alone gets a new generation
      · by_cases here : i = s.index
        · exact .inr ⟨by rw [here], rfl⟩
        refine .inl ⟨?_, generations i here⟩
        rw [erased, Orphans.indices, List.flatMap_append, ← Orphans.indices,
          ← Orphans.indices, children]
        rcases mem with inside | behind
        · rcases List.mem_append.mp ((Rose.indices_fill (f :: fs) s).subset inside)
            with around | own
          · exact .inl (Rose.outside_subset_drop f fs around)
          · rw [Rose.indices_eq] at own
            exact .inr (List.mem_append_left _ ((List.mem_cons.mp own).resolve_left here))
        · exact .inr (List.mem_append_right _ behind)

theorem HoldsBeside.answers_adopt (beside : t.HoldsBeside r o.blocks) (fits : r.Fits)
    {above below : Handle} (namesA : t.Names above) (namesB : t.Names below)
    (dead : ¬ t.Revives below) : t.Answers r o (.adopt above below) := by
  have h := beside.holds
  have kept : ∀ i ∈ r.indices, i ≠ t.freshIndex := fun i hi same => h.fresh (same ▸ hi)
  have stay : ∀ i ∈ o.indices, i ≠ t.freshIndex := fun i hi => (beside.orphan_lt hi).ne
  rcases h.names namesA with ⟨broken, none⟩ | ⟨u, fs, rfl, placeU, foundU⟩
  · refine beside.unchanged fits (.refused .brokenNode) ?_ (by simp [Request.Effect, none]) fun _ =>
      Reply.noConfusion
    have added : t.addChild above 0 [] = .ok (t, .broken) := by
      simp [Arena.addChild, broken, pure, Except.pure]
    simp [Request.apply, Arena.adopt, added, isBroken_broken, bind, Except.bind, pure, Except.pure]
  have holdsU : t.HoldsBeside (Rose.fill fs u) o.blocks := placeU ▸ beside
  -- A move that leaves the tree alone answers with its refusal.
  have refused : ∀ refusal : Option Refusal,
      (∀ t₁ : Arena, t₁.Holds (Rose.fill fs (u.push (.node t.freshIndex 0 [] []))) →
      t₁.size = t.size + 5 → (∀ i, t₁.generation i = t.generation i) →
      t₁.swapRefusal? (t₁.handle t.freshIndex) below = .ok refusal ∧
      (if refusal.isNone then t₁.exchange (t₁.handle t.freshIndex) below else pure t₁) = .ok t₁) →
      Request.Effect t r r ((refusal.map .refused).getD .done) (.adopt (t.handle u.index) below) →
      t.Answers r o (.adopt (t.handle u.index) below) := by
    intro refusal asked effect
    obtain ⟨t', ran, holds, -, generations⟩ := holdsU.adopt_refused asked
    refine ⟨t', _, r, o, ?_, placeU ▸ holds, fits, effect, fun i hi _ => generations i (kept i hi),
      fun i mem => .inl ⟨mem, generations i (mem.elim (kept i) (stay i))⟩, fun n same => ?_⟩
    · simp [Request.apply, ran, bind, Except.bind, pure, Except.pure]
    · cases refusal <;> cases same
  rcases h.names namesB with ⟨broken, none⟩ | ⟨b, gs, rfl, placeB, foundB⟩
  · by_cases own : below = t.handle t.freshIndex
    · -- The handle will name the placeholder itself, which changes places with nobody.
      refine refused Option.none (fun t₁ holds size generations => ?_) ?_
      · have same : below = t₁.handle t.freshIndex := by
          rw [own]
          simp only [Arena.handle, generations]
        have live := (show t₁.Holds (Rose.fill (u.lastFrame :: fs) (.node t.freshIndex 0 [] []))
          from holds).isBroken
        rw [Rose.index_node] at live
        constructor
        · simp [same, swapRefusal?, live, pure, Except.pure]
        · simp [same, Arena.exchange, pure, Except.pure]
      · rw [Request.Effect, foundU, none]
        exact ⟨rfl, .inr own⟩
    · refine refused (some .brokenNode) (fun t₁ holds size generations => ?_) ?_
      · have still : t₁.isBroken below = true := by
          by_contra live
          rw [Bool.not_eq_true, Arena.isBroken, Bool.or_eq_false_iff, Bool.not_eq_false', hasRecord,
            Bool.and_eq_true, decide_eq_true_eq, decide_eq_true_eq, size, generations,
            bne_eq_false_iff_eq] at live
          obtain ⟨⟨low, high⟩, current⟩ := live
          have other : below.index ≠ t.freshIndex :=
            fun same => own (by rw [← same, Arena.handle, current])
          refine dead ⟨broken, current, low, ?_⟩
          unfold freshIndex at other ⊢
          push_cast at high
          omega
        refine ⟨?_, rfl⟩
        rw [swapRefusal?, still, Bool.or_true]
        rfl
      · rw [Request.Effect, foundU, none]
        exact ⟨rfl, .inl rfl⟩
  by_cases nested : u.index ∈ b.indices
  · refine refused (some (.nestedNodes t.freshIndex b.index))
      (fun t₁ holds size generations => ?_) ?_
    · have handle : t.handle b.index = t₁.handle b.index := by simp only [Arena.handle, generations]
      rw [handle]
      exact ⟨h.placeholder_nested placeU placeB nested holds, rfl⟩
    · rw [Request.Effect, foundU, foundB]
      dsimp only
      rw [if_pos nested]
      exact ⟨rfl, rfl⟩
  · obtain ⟨t', ran, holds, all, generations⟩ := beside.adopt placeU placeB nested
    refine ⟨t', .done, _, o, ?_, holds, ?_, ?_, fun i hi _ => generations i (kept i hi),
      fun i mem => .inl ⟨mem.imp_left (all i), generations i (mem.elim (kept i) (stay i))⟩,
      fun _ => Reply.noConfusion⟩
    · simp [Request.apply, ran, bind, Except.bind, pure, Except.pure]
    · refine (fits.erase b.index).edit fun x hx _ =>
        ((fits.erase b.index).sub hx).push (fits.sub ?_)
      exact placeB ▸ Rose.mem_nodes_fill gs b.mem_nodes_self
    · rw [Request.Effect, foundU, foundB]
      dsimp only
      rw [if_neg nested]
      exact ⟨rfl, rfl⟩

theorem HoldsBeside.answers_copy (beside : t.HoldsBeside r o.blocks)
    (fits : r.Fits) {n under : Handle} (namesN : t.Names n)
    (namesU : t.Names under) : t.Answers r o (.copy n under) := by
  have h := beside.holds
  rcases h.names namesN with ⟨broken, none⟩ | ⟨s, fs, rfl, placeS, foundS⟩
  · refine beside.unchanged fits (.made .broken) ?_ (by simp [Request.Effect, none]) fun n same =>
      (Reply.made.inj same).symm
    simp [Request.apply, Arena.copy, broken, bind, Except.bind, pure, Except.pure]
  have holdsS : t.Holds (Rose.fill fs s) := placeS ▸ h
  have inside : s ∈ r.nodes := placeS ▸ Rose.mem_nodes_fill fs s.mem_nodes_self
  have seen : t.viewOf (t.handle s.index) = .ok s := by
    refine holdsS.subtree.viewAt_eq (Nat.le_trans ?_ h.height_le) (fits.sub inside)
    exact Rose.height_le_of_mem_nodes inside
  have graft : t.copy (t.handle s.index) under = t.graft under s := by
    simp [Arena.copy, holdsS.isBroken, seen, bind, Except.bind]
  rcases h.names namesU with ⟨broken, none⟩ | ⟨u, gs, rfl, placeU, foundU⟩
  · refine beside.unchanged fits (.made .broken) ?_ (by simp [Request.Effect, foundS, none])
      fun n same => (Reply.made.inj same).symm
    simp [Request.apply, graft, graft_broken s broken, bind, Except.bind, pure, Except.pure]
  · obtain ⟨t', c, ran, holds, shape, generations⟩ := HoldsBeside.graft s (placeU ▸ beside)
    have edited := Rose.edit_fill (show t.Holds (Rose.fill gs u) from placeU ▸ h).nodup (·.push c)
    rw [← placeU] at edited
    have handle : t'.handle c.index = t.handle c.index := by simp only [Arena.handle, generations]
    have answered : t.Answered (Rose.fill gs u) o (.copy (t.handle s.index) (t.handle u.index)) t'
        (.made (t'.handle c.index)) (Rose.fill gs (u.push c)) o := by
      refine .in_place ?_ holds ?_ ?_ generations (Rose.indices_push u c
        ▸ List.subset_append_left ..) ?_
      · simp [Request.apply, graft, ran, bind, Except.bind, pure, Except.pure]
      · rw [← edited]
        exact fits.edit fun x hx _ => (fits.sub hx).push ((fits.sub inside).of_shape shape)
      · rw [← edited, ← placeU, Request.Effect, foundS, foundU]
        exact ⟨c, shape, rfl, by rw [handle]⟩
      · rintro n ⟨⟩
        exact ⟨Rose.indices_push u c ▸ List.mem_append_right _ c.index_mem_indices, rfl⟩
    rw [placeU]
    exact ⟨t', _, _, o, answered⟩

/-! ## Runs -/

theorem HoldsBeside.answers (h : t.HoldsBeside r o.blocks) (fits : r.Fits) {request : Request}
    (admissible : request.Admissible t) : t.Answers r o request := by
  cases request with
  | addChild n type args => exact h.answers_addChild fits admissible.1 type admissible.2
  | addArg n value => exact h.answers_addArg fits admissible.1 value admissible.2
  | setArg n i value => exact h.answers_setArg fits admissible i value
  | setType n type => exact h.answers_setType fits admissible type
  | insert n type argc =>
    exact h.answers_insert fits admissible.1 type admissible.2.1 admissible.2.2
  | swap a b => exact h.answers_swap fits admissible.1 admissible.2
  | remove n => exact h.answers_remove fits admissible
  | adopt above below => exact h.answers_adopt fits admissible.1 admissible.2.1 admissible.2.2
  | copy n under => exact h.answers_copy fits admissible.1 admissible.2.1

theorem Holds.answers (h : t.Holds r) (fits : r.Fits) {request : Request}
    (admissible : request.Admissible t) : ∃ t' reply r', request.apply t = .ok (t', reply) ∧
    t'.Holds r' ∧ r'.Fits ∧ request.Effect t r r' reply ∧
    ∀ i ∈ r.indices, i ∈ r'.indices → t'.generation i = t.generation i := by
  obtain ⟨t', reply, r', _, answered⟩ := HoldsBeside.answers (o := []) h.beside fits admissible
  exact ⟨t', reply, r', answered.ran, answered.holds.holds, answered.fits, answered.effect,
    answered.kept⟩

theorem holds_new (rootType : Int) : (new rootType).Holds (.node rootIndex rootType [] []) := by
  refine ⟨rfl, ?_⟩
  rw [Rose.blocks_leaf]
  refine HasAll.cons_iff.mpr ⟨⟨?_, ?_, rfl, rfl, rfl, ?_, rfl, ?_⟩, ⟨by simp, by simp⟩, by simp⟩
  · simp [rootIndex]
  · simp [rootIndex, size, new]
  · simp
  · simp

theorem Built.holds {rootType : Int} (built : Built rootType t) : ∃ r, t.Holds r ∧ r.Fits := by
  induction built with
  | new => exact ⟨_, holds_new rootType, Rose.fits_iff.2 ⟨by simp [largestBlock], by simp⟩⟩
  | step _ admissible ran ih =>
    obtain ⟨r, holds, fits⟩ := ih
    obtain ⟨t', reply, r', ran', holds', fits', -, -⟩ := holds.answers fits admissible
    obtain ⟨rfl, -⟩ := Prod.mk.inj (Except.ok.inj (ran'.symm.trans ran))
    exact ⟨r', holds', fits'⟩

/-- Every arena that a run of requests leads to holds one tree, which is what it shows: the records
of the tree lie apart, their links and counts are those of the tree, the handles that name nodes are
those of the tree, and the check is passed. Every further request is answered, and it changes the
tree as its effect says, and nothing else; the nodes that stay keep their handles. -/
theorem Built.refines {rootType : Int} (built : Built rootType t) :
    ∃ r, t.view = .ok r ∧ t.Holds r ∧ t.isCorrect = .ok true ∧
    (∀ n, t.Reachable n ↔ ∃ s ∈ r.nodes, n = t.handle s.index) ∧
    ∀ request : Request, request.Admissible t → ∃ t' reply r', request.apply t = .ok (t', reply) ∧
    t'.view = .ok r' ∧ request.Effect t r r' reply ∧
    ∀ s ∈ r'.nodes, s.index ∈ r.indices → t'.handle s.index = t.handle s.index := by
  obtain ⟨r, holds, fits⟩ := built.holds
  refine ⟨r, holds.view fits, holds, holds.isCorrect, fun n => holds.reachable_iff,
    fun request admissible => ?_⟩
  obtain ⟨t', reply, r', ran, holds', fits', effect, kept⟩ := holds.answers fits admissible
  refine ⟨t', reply, r', ran, holds'.view fits', effect, fun s mem old => ?_⟩
  rw [Arena.handle, Arena.handle, kept s.index old (List.mem_map_of_mem mem)]

/-- A run of four requests: two children of a new root change places, and then the second one
becomes a child of the first one. -/
theorem Built.refines_adopted : ∃ t r, Built 100 t ∧ t.view = .ok r ∧ t.Holds r ∧
    t.isCorrect = .ok true ∧ r = .node 2 100 [] [.node 7 1 [10] [.node 13 2 [] []]] := by
  let child : Arena := ⟨#[0, 100, 1, 7, 0, -2, 1, 0, 0, 1, 10], ∅⟩
  let pair : Arena := ⟨#[0, 100, 2, 7, 0, 13, 1, 0, 0, 1, 10, -2, 2, 0, 0, 0], ∅⟩
  let turned : Arena := ⟨#[0, 100, 2, 13, 0, -2, 1, 0, 0, 1, 10, 7, 2, 0, 0, 0], ∅⟩
  -- the placeholder of the adoption has been given back: its index has a generation
  let nested : Arena := ⟨#[0, 100, 1, 7, 0, -2, 1, 1, 13, 1, 10, -7, 2, 0, 0, 0],
    (∅ : Std.TreeMap Int UInt32).insert 18 1⟩
  have first : Request.apply (.new 100) (.addChild ⟨2, 0⟩ 1 [10]) = .ok (child, .made ⟨7, 0⟩) := by
    cbv
  have second : Request.apply child (.addChild ⟨2, 0⟩ 2 []) = .ok (pair, .made ⟨13, 0⟩) := by cbv
  have swapped : Request.apply pair (.swap ⟨7, 0⟩ ⟨13, 0⟩) = .ok (turned, .done) := by cbv
  have adopted : Request.apply turned (.adopt ⟨7, 0⟩ ⟨13, 0⟩) = .ok (nested, .done) := by cbv
  have seven : pair.Reachable ⟨7, 0⟩ := .child 0 .self (by cbv) (by cbv)
  have thirteen : pair.Reachable ⟨13, 0⟩ := .child 1 .self (by cbv) (by cbv)
  have last : turned.Reachable ⟨7, 0⟩ := .child 1 .self (by cbv) (by cbv)
  have head : turned.Reachable ⟨13, 0⟩ := .child 0 .self (by cbv) (by cbv)
  have alive : turned.isBroken ⟨13, 0⟩ = false := by cbv
  have adds : (Request.addChild ⟨2, 0⟩ 1 [10]).Admissible (.new 100) := ⟨.inl .self, by decide⟩
  have more : (Request.addChild ⟨2, 0⟩ 2 []).Admissible child := ⟨.inl .self, by decide⟩
  have swaps : (Request.swap ⟨7, 0⟩ ⟨13, 0⟩).Admissible pair := ⟨.inl seven, .inl thirteen⟩
  have moves : (Request.adopt ⟨7, 0⟩ ⟨13, 0⟩).Admissible turned :=
    ⟨.inl last, .inl head, fun revives => Bool.false_ne_true (alive.symm.trans revives.1)⟩
  have paired : Built 100 pair := (Built.new.step adds first).step more second
  have built : Built 100 nested := (paired.step swaps swapped).step moves adopted
  have seen : nested.view = .ok (.node 2 100 [] [.node 7 1 [10] [.node 13 2 [] []]]) := by cbv
  obtain ⟨r, view, holds, correct, -⟩ := Built.refines built
  obtain rfl := Except.ok.inj (seen.symm.trans view)
  exact ⟨nested, _, built, view, holds, correct, rfl⟩

/-- A swap of the root with itself is not refused. -/
theorem swap_root_self : Built 0 (new 0) ∧
    Request.apply (new 0) (.swap (new 0).root (new 0).root) = .ok (new 0, .done) := by
  have whole : (new 0).Holds (Rose.fill [] (.node rootIndex 0 [] [])) := holds_new 0
  have asked := whole.swapRefusal (show _ = Rose.fill [] (.node rootIndex 0 [] []) from rfl)
  rw [if_pos rfl] at asked
  have stays : (new 0).exchange (new 0).root (new 0).root = .ok (new 0) := by
    rw [exchange, if_pos (by simp)]
    rfl
  refine ⟨.new, ?_⟩
  simp only [Request.apply, swap, root, Rose.index_node] at asked stays ⊢
  simp only [asked, stays, bind, Except.bind]
  rfl

/-- A handle into the middle of a record that was given back is broken, but moving it ends in a
fault: the placeholder brings it back to life before it is looked at. -/
theorem adopt_revived :
    isBroken ⟨#[0, 0, 0, -2, 0], (∅ : Std.TreeMap Int UInt32).insert 7 1⟩ ⟨6, 0⟩ = true ∧
    adopt ⟨#[0, 0, 0, -2, 0], (∅ : Std.TreeMap Int UInt32).insert 7 1⟩ ⟨2, 0⟩ ⟨6, 0⟩ =
    .error .badIndex :=
  ⟨by cbv, by cbv⟩

end Arena

end BilingualC
