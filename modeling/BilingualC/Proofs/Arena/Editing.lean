import Mathlib
import BilingualC.Proofs.Arena.Moves

/-!
# Editing a tree by index

`edit`, `exchange` and `erase` change the nodes of a tree that have given indices. In a tree whose
indices are distinct they change the subtree in one place, or in two parted places, and nothing else
(`edit_fill`, `exchange_fill`, `erase_fill`). Moving a subtree by way of a placeholder is erasing it
and appending it in its new place (`erase_exchange_edit`).
-/

namespace BilingualC

namespace Rose

mutual

/-- Changes the outermost nodes whose indices have a change. -/
def alter (change : Int → Option (Rose → Rose)) : Rose → Rose
  | .node i type args children =>
    match change i with
    | some f => f (.node i type args children)
    | none => .node i type args (alterAll change children)

/-- Changes the outermost nodes of some trees. -/
def alterAll (change : Int → Option (Rose → Rose)) : List Rose → List Rose
  | [] => []
  | c :: cs => c.alter change :: alterAll change cs

end

mutual

/-- Takes all nodes with an index, other than the root, out of a tree. -/
def erase (i : Int) : Rose → Rose
  | .node j type args children => .node j type args (eraseAll i children)

/-- Takes all nodes with an index out of some trees. -/
def eraseAll (i : Int) : List Rose → List Rose
  | [] => []
  | c :: cs => if c.index = i then eraseAll i cs else c.erase i :: eraseAll i cs

end

/-- Changes the node with an index. -/
def edit (i : Int) (f : Rose → Rose) : Rose → Rose := alter fun j => if j = i then some f else none

/-- The change that puts two subtrees in the places of each other. -/
def swapping (a b : Rose) (i : Int) : Option (Rose → Rose) :=
  if i = a.index then some fun _ => b else if i = b.index then some fun _ => a else none

/-- Exchanges two subtrees. -/
def exchange (r a b : Rose) : Rose := r.alter (swapping a b)

/-! ## Step by step -/

variable {change : Int → Option (Rose → Rose)} {r s : Rose} {i j : Int}

theorem alterAll_eq (change : Int → Option (Rose → Rose)) (cs : List Rose) :
    alterAll change cs = cs.map (alter change) := by
  induction cs with
  | nil => rw [alterAll]; rfl
  | cons c cs ih => rw [alterAll, ih, List.map_cons]

theorem alter_of_some {f : Rose → Rose} (h : change r.index = some f) : r.alter change = f r := by
  cases r
  rw [index_node] at h
  rw [alter, h]

theorem alter_of_none (h : change r.index = none) :
    r.alter change = .node r.index r.type r.args (r.children.map (alter change)) := by
  cases r
  rw [index_node] at h
  rw [alter, h, alterAll_eq]
  rfl

theorem erase_eq (i : Int) (r : Rose) :
    r.erase i = .node r.index r.type r.args (eraseAll i r.children) := by
  cases r
  rw [erase]
  rfl

@[simp] theorem index_erase (i : Int) (r : Rose) : (r.erase i).index = r.index := by
  rw [erase_eq]
  rfl

@[simp] theorem eraseAll_nil (i : Int) : eraseAll i [] = [] := by rw [eraseAll]

theorem eraseAll_cons (i : Int) (c : Rose) (cs : List Rose) :
    eraseAll i (c :: cs) = if c.index = i then eraseAll i cs else c.erase i :: eraseAll i cs := by
  rw [eraseAll]

theorem eraseAll_append (i : Int) (cs ds : List Rose) :
    eraseAll i (cs ++ ds) = eraseAll i cs ++ eraseAll i ds := by
  induction cs with
  | nil => simp
  | cons c cs ih =>
    rw [List.cons_append, eraseAll_cons, eraseAll_cons, ih]
    split <;> simp

theorem edit_of_ne (h : r.index ≠ i) (f : Rose → Rose) :
    r.edit i f = .node r.index r.type r.args (r.children.map (edit i f)) := alter_of_none (if_neg h)

theorem edit_self (f : Rose → Rose) : r.edit r.index f = f r := alter_of_some (if_pos rfl)

theorem exchange_first {a b : Rose} (h : r.index = a.index) : r.exchange a b = b :=
  alter_of_some (f := fun _ => b) (if_pos h)

theorem exchange_second {a b : Rose} (ne : r.index ≠ a.index) (h : r.index = b.index) :
    r.exchange a b = a :=
  alter_of_some (f := fun _ => a) ((if_neg ne).trans (if_pos h))

theorem exchange_of_ne {a b : Rose} (first : r.index ≠ a.index) (second : r.index ≠ b.index) :
    r.exchange a b = .node r.index r.type r.args (r.children.map (·.exchange a b)) :=
  alter_of_none ((if_neg first).trans (if_neg second))

/-- The order in which two different subtrees are named does not matter. -/
theorem exchange_comm {a b : Rose} (ne : a.index ≠ b.index) (r : Rose) :
    r.exchange a b = r.exchange b a := by
  have same : swapping a b = swapping b a := by
    funext i
    unfold swapping
    by_cases first : i = a.index
    · rw [if_pos first, if_neg (first ▸ ne), if_pos first]
    · rw [if_neg first, if_neg first]
  rw [exchange, exchange, same]

/-! ## Nodes that stay -/

theorem indices_eq (r : Rose) : r.indices = r.index :: r.children.flatMap indices := by
  rw [indices, nodes_eq, List.map_cons, List.map_flatMap]
  rfl

theorem index_mem_indices (r : Rose) : r.index ∈ r.indices := List.mem_map_of_mem r.mem_nodes_self

theorem indices_child {c : Rose} (mem : c ∈ r.children) (h : i ∈ c.indices) : i ∈ r.indices := by
  rw [indices_eq]
  exact List.mem_cons_of_mem _ (List.mem_flatMap.mpr ⟨c, mem, h⟩)

/-- A tree without an index that has a change stays as it is. -/
theorem alter_id (h : ∀ i ∈ r.indices, change i = none) : r.alter change = r := by
  induction r using Rose.induction_on with
  | step i type args children ih =>
    rw [alter_of_none (h _ (index_mem_indices _))]
    have same : children.map (alter change) = children :=
      (List.map_congr_left fun c hc => ih c hc fun i hi => h i (indices_child hc hi)).trans
        (List.map_id _)
    rw [children_node, same]
    rfl

/-- A tree without an index stays as it is when the index is erased. -/
theorem erase_id (h : i ∉ r.indices) : r.erase i = r := by
  induction r using Rose.induction_on with
  | step j type args children ih =>
    have siblings : ∀ cs : List Rose, (∀ c ∈ cs, c ∈ children) → eraseAll i cs = cs := by
      intro cs sub
      induction cs with
      | nil => simp
      | cons c cs ihs =>
        have absent : i ∉ c.indices := fun hi => h (indices_child (sub c (by simp)) hi)
        have other : c.index ≠ i := fun same => absent (same ▸ c.index_mem_indices)
        rw [eraseAll_cons, if_neg other, ih c (sub c (by simp)) absent,
          ihs fun d hd => sub d (by simp [hd])]
    rw [erase_eq, children_node, siblings children fun c hc => hc]
    rfl

theorem eraseAll_id {cs : List Rose} (h : ∀ c ∈ cs, i ∉ c.indices) : eraseAll i cs = cs := by
  induction cs with
  | nil => simp
  | cons c cs ih =>
    have absent := h c (by simp)
    have other : c.index ≠ i := fun same => absent (same ▸ c.index_mem_indices)
    rw [eraseAll_cons, if_neg other, erase_id absent, ih fun d hd => h d (by simp [hd])]

/-- An erased index is gone. -/
theorem not_mem_erase (ne : r.index ≠ i) : i ∉ (r.erase i).indices := by
  induction r using Rose.induction_on with
  | step j type args children ih =>
    have siblings : ∀ cs : List Rose, (∀ c ∈ cs, c ∈ children) →
      ∀ c ∈ eraseAll i cs, i ∉ c.indices := by
      intro cs sub
      induction cs with
      | nil => simp
      | cons d cs ihs =>
        have rest := ihs fun c hc => sub c (by simp [hc])
        rw [eraseAll_cons]
        split
        · exact rest
        · rename_i other
          intro c hc
          rcases List.mem_cons.mp hc with rfl | inTail
          · exact ih d (sub d (by simp)) other
          · exact rest c inTail
    rw [erase_eq, indices_eq]
    intro mem
    rcases List.mem_cons.mp mem with same | below
    · exact ne same.symm
    · obtain ⟨c, hc, hi⟩ := List.mem_flatMap.mp below
      exact siblings children (fun c hc => hc) c hc hi

/-! ## Places -/

/-- The indices around a place. -/
def outside : List Frame → List Int
  | [] => []
  | f :: fs => f.index :: (f.siblings.map index ++ outside fs)

theorem indices_sibling {f : Frame} {c : Rose} (mem : c ∈ f.before ++ f.after) (h : i ∈ c.indices) :
    i ∈ f.siblings.map index := by
  obtain ⟨x, hx, rfl⟩ := List.mem_map.mp h
  exact List.mem_map_of_mem (List.mem_flatMap.mpr ⟨c, mem, hx⟩)

theorem indices_fill (fs : List Frame) (s : Rose) :
    ((fill fs s).indices).Perm (outside fs ++ s.indices) := by
  induction fs generalizing s with
  | nil => exact List.Perm.refl _
  | cons f fs ih =>
    refine (ih (f.plug s)).trans ?_
    have inner : ((f.plug s).indices).Perm (f.index :: (f.siblings.map index ++ s.indices)) := by
      have nodes := (f.nodes_plug s).map index
      simpa [indices] using nodes
    refine (inner.append_left _).trans ?_
    rw [outside, List.perm_iff_count]
    intro i
    simp only [List.count_append, List.count_cons]
    omega

/-- No index around a place is one of the subtree in it. -/
theorem outside_disjoint {fs : List Frame} (nodup : (fill fs s).indices.Nodup) :
    ∀ i ∈ outside fs, i ∉ s.indices := fun i hi hs =>
  (List.nodup_append.mp ((indices_fill fs s).nodup_iff.mp nodup)).2.2 i hi i hs rfl

theorem map_alter_id {cs : List Rose} (h : ∀ c ∈ cs, ∀ i ∈ c.indices, change i = none) :
    cs.map (alter change) = cs :=
  (List.map_congr_left fun c hc => alter_id (h c hc)).trans (List.map_id _)

/-- Changes below a place do not reach the frames around it. -/
theorem alter_fill {fs : List Frame} (h : ∀ i ∈ outside fs, change i = none) :
    (fill fs s).alter change = fill fs (s.alter change) := by
  induction fs generalizing s with
  | nil => rfl
  | cons f fs ih =>
    rw [fill_cons, fill_cons, ih fun i hi => h i (by simp [outside, hi])]
    congr 1
    have siblings : ∀ c ∈ f.before ++ f.after, ∀ i ∈ c.indices, change i = none := fun c hc i hi =>
      h i (List.mem_cons_of_mem _ (List.mem_append_left _ (indices_sibling hc hi)))
    rw [alter_of_none (h _ (by simp [outside])), Frame.plug_children, List.map_append,
      List.map_cons, map_alter_id fun c hc => siblings c (List.mem_append_left _ hc),
      map_alter_id fun c hc => siblings c (List.mem_append_right _ hc)]
    rfl

theorem edit_fill {fs : List Frame} (nodup : (fill fs s).indices.Nodup) (f : Rose → Rose) :
    (fill fs s).edit s.index f = fill fs (f s) := by
  have apart := outside_disjoint nodup
  have other : ∀ i ∈ outside fs, (if i = s.index then some f else none) = none := by
    intro i hi
    rw [if_neg]
    rintro rfl
    exact apart _ hi s.index_mem_indices
  rw [edit, alter_fill other]
  exact congrArg _ (edit_self f)

theorem erase_fill_outside {fs : List Frame} (h : i ∉ outside fs) (ne : s.index ≠ i) :
    (fill fs s).erase i = fill fs (s.erase i) := by
  induction fs generalizing s with
  | nil => rfl
  | cons f fs ih =>
    simp only [outside, List.mem_cons, List.mem_append, not_or] at h
    obtain ⟨parent, siblings, outer⟩ := h
    rw [fill_cons, fill_cons, ih outer (s := f.plug s) (Ne.symm parent)]
    congr 1
    rw [erase_eq, Frame.plug_children, eraseAll_append, eraseAll_cons, if_neg ne,
      eraseAll_id fun c hc hi => siblings (indices_sibling (List.mem_append_left _ hc) hi),
      eraseAll_id fun c hc hi => siblings (indices_sibling (List.mem_append_right _ hc) hi)]
    rfl

theorem erase_fill {f : Frame} {fs : List Frame} (nodup : (fill (f :: fs) s).indices.Nodup) :
    (fill (f :: fs) s).erase s.index = fill fs f.drop := by
  have apart : s.index ∉ outside (f :: fs) :=
    fun hi => outside_disjoint nodup _ hi s.index_mem_indices
  simp only [outside, List.mem_cons, List.mem_append, not_or] at apart
  obtain ⟨parent, siblings, outer⟩ := apart
  rw [fill_cons, erase_fill_outside (s := f.plug s) outer (Ne.symm parent)]
  congr 1
  rw [erase_eq, Frame.plug_children, eraseAll_append, eraseAll_cons, if_pos rfl,
    eraseAll_id fun c hc hi => siblings (indices_sibling (List.mem_append_left _ hc) hi),
    eraseAll_id fun c hc hi => siblings (indices_sibling (List.mem_append_right _ hc) hi)]
  rfl

theorem indices_push (u b : Rose) : (u.push b).indices = u.indices ++ b.indices := by
  rw [indices_eq, indices_eq u]
  simp [push]

/-- Closing the hole keeps the indices around it. -/
theorem outside_subset_drop (f : Frame) (fs : List Frame) :
    outside (f :: fs) ⊆ (fill fs f.drop).indices := by
  intro i mem
  refine (indices_fill fs f.drop).symm.subset ?_
  simp only [outside, List.mem_cons, List.mem_append] at mem
  rcases mem with rfl | inside | above
  · exact List.mem_append_right _ f.drop.index_mem_indices
  · refine List.mem_append_right _ ?_
    rw [indices_eq]
    refine List.mem_cons_of_mem _ ?_
    rw [Frame.siblings, List.map_flatMap] at inside
    exact inside
  · exact List.mem_append_left _ above

/-! ## Two places -/

/-- The indices around two places. -/
theorem indices_fork (f : Fork) (inner other outer : List Frame) (a b : Rose) :
    ((f.fill inner other outer a b).indices).Perm
    (f.index :: (f.before.flatMap indices ++ f.between.flatMap indices ++ f.after.flatMap indices)
      ++ (outside inner ++ outside other ++ outside outer) ++ (a.indices ++ b.indices)) := by
  have whole := indices_fill outer (f.plug (fill inner a) (fill other b))
  have node : (f.plug (fill inner a) (fill other b)).indices =
      f.index :: (f.before.flatMap indices ++ ((fill inner a).indices ++
      (f.between.flatMap indices ++ ((fill other b).indices ++ f.after.flatMap indices)))) := by
    rw [indices_eq, Fork.plug, Frame.plug_children]
    simp only [Fork.left, List.flatMap_append, List.flatMap_cons]
    rfl
  rw [node] at whole
  have first := indices_fill inner a
  have second := indices_fill other b
  rw [List.perm_iff_count] at *
  intro i
  have whole := whole i
  have first := first i
  have second := second i
  simp only [List.count_append, List.count_cons] at whole first second
  simp only [Fork.fill, List.count_append, List.count_cons]
  omega

/-- Two places hold the same indices whichever subtree stands in which. -/
theorem indices_fork_comm (f : Fork) (inner other outer : List Frame) (a b : Rose) :
    ((f.fill inner other outer b a).indices).Perm (f.fill inner other outer a b).indices :=
  (indices_fork f inner other outer b a).trans
    ((List.perm_append_comm.append_left _).trans (indices_fork f inner other outer a b).symm)

theorem exchange_fill {f : Fork} {inner other outer : List Frame} {a b : Rose}
    (nodup : (f.fill inner other outer a b).indices.Nodup) :
    (f.fill inner other outer a b).exchange a b = f.fill inner other outer b a := by
  have distinct := (indices_fork f inner other outer a b).nodup_iff.mp nodup
  rw [List.nodup_append] at distinct
  obtain ⟨-, pair, apart⟩ := distinct
  have ne : b.index ≠ a.index := fun same =>
    (List.nodup_append.mp pair).2.2 _ a.index_mem_indices _ b.index_mem_indices same.symm
  have stay : ∀ i ∈ f.index :: (f.before.flatMap indices ++ f.between.flatMap indices ++
      f.after.flatMap indices) ++ (outside inner ++ outside other ++ outside outer),
      swapping a b i = none := by
    intro i hi
    rw [swapping, if_neg (apart i hi _ (List.mem_append_left _ a.index_mem_indices)),
      if_neg (apart i hi _ (List.mem_append_right _ b.index_mem_indices))]
  simp only [List.mem_cons, List.mem_append] at stay
  have list : ∀ cs : List Rose, (∀ i ∈ cs.flatMap indices, swapping a b i = none) →
      cs.map (alter (swapping a b)) = cs := fun cs h =>
    map_alter_id fun c hc i hi => h i (List.mem_flatMap.mpr ⟨c, hc, hi⟩)
  have first : (fill inner a).alter (swapping a b) = fill inner b := by
    rw [alter_fill fun i hi => stay i (by simp [hi])]
    exact congrArg _ (exchange_first rfl)
  have second : (fill other b).alter (swapping a b) = fill other a := by
    rw [alter_fill fun i hi => stay i (by simp [hi])]
    exact congrArg _ (exchange_second ne rfl)
  rw [Fork.fill, exchange, alter_fill fun i hi => stay i (by simp [hi]), Fork.fill]
  congr 1
  have children : (f.plug (fill inner a) (fill other b)).children.map (alter (swapping a b)) =
      (f.plug (fill inner b) (fill other a)).children := by
    simp only [Fork.plug, Frame.plug_children, Fork.left, List.map_append, List.map_cons,
      first, second]
    rw [list f.before fun i hi => stay i (by simp [hi]), list f.between fun i hi =>
      stay i (by simp [hi]), list f.after fun i hi => stay i (by simp [hi])]
  rw [alter_of_none (stay _ (by simp [Fork.plug, Fork.left])), children]
  rfl

/-! ## Moving by way of a placeholder -/

/-- Siblings are erased one by one: what turns into an erased tree has to be an erased tree. -/
theorem eraseAll_map {g h : Rose → Rose} {cs : List Rose}
    (gone : ∀ c ∈ cs, c.index = j → (g c).index = i)
    (kept : ∀ c ∈ cs, c.index ≠ j → (g c).index ≠ i ∧ (g c).erase i = h (c.erase j)) :
    eraseAll i (cs.map g) = (eraseAll j cs).map h := by
  induction cs with
  | nil => simp
  | cons c cs ih =>
    have rest := ih (fun d hd => gone d (by simp [hd])) fun d hd => kept d (by simp [hd])
    rw [List.map_cons, eraseAll_cons, eraseAll_cons, rest]
    by_cases here : c.index = j
    · rw [if_pos (gone c (by simp) here), if_pos here]
    · have stays := kept c (by simp) here
      rw [if_neg stays.1, if_neg here, stays.2, List.map_cons]

variable {p b : Rose}

theorem index_exchange (first : r.index ≠ p.index) (second : r.index ≠ b.index) :
    (r.exchange p b).index = r.index := by
  rw [exchange_of_ne first second]
  rfl

/-- Exchanging a subtree with a placeholder and erasing the placeholder erases the subtree. -/
theorem erase_exchange (fresh : p.index ∉ r.indices) (ne : r.index ≠ b.index) :
    (r.exchange p b).erase p.index = r.erase b.index := by
  induction r using Rose.induction_on with
  | step j type args children ih =>
    have absent : ∀ c ∈ children, p.index ∉ c.indices := fun c hc hi => fresh (indices_child hc hi)
    have notP : ∀ c ∈ children, c.index ≠ p.index :=
      fun c hc same => absent c hc (same ▸ c.index_mem_indices)
    have root : (node j type args children).index ≠ p.index :=
      fun same => fresh (same ▸ index_mem_indices _)
    rw [exchange_of_ne root ne, erase_eq, erase_eq, children_node, children_node,
      eraseAll_map (j := b.index) (h := id)
      (fun c hc here => congrArg index (exchange_second (notP c hc) here)) fun c hc other =>
      ⟨by rw [index_exchange (notP c hc) other]; exact notP c hc, ih c hc (absent c hc) other⟩,
      List.map_id]
    rfl

theorem index_edit_push (i : Int) (r s : Rose) : (r.edit i (·.push s)).index = r.index := by
  by_cases here : r.index = i
  · subst here
    rw [edit_self]
    rfl
  · rw [edit_of_ne here]
    rfl

/-- Putting a placeholder in a new place, exchanging it with a subtree and erasing it moves the
subtree. -/
theorem erase_exchange_edit (fresh : p.index ∉ r.indices) (freshB : p.index ∉ b.indices)
    (ne : r.index ≠ b.index) :
    ((r.edit i (·.push p)).exchange p b).erase p.index = (r.erase b.index).edit i (·.push b) := by
  have notP : b.index ≠ p.index := fun same => freshB (same ▸ b.index_mem_indices)
  induction r using Rose.induction_on with
  | step j type args children ih =>
    have absent : ∀ c ∈ children, p.index ∉ c.indices := fun c hc hi => fresh (indices_child hc hi)
    have root : j ≠ p.index := fun same => fresh (same ▸ index_mem_indices _)
    have away : j ≠ b.index := ne
    by_cases here : j = i
    · -- The placeholder is appended here and turns into the subtree.
      subst here
      have left :
        (node j type args children).edit j (·.push p) = .node j type args (children ++ [p]) :=
        edit_self (r := node j type args children) _
      have right : (node j type args (eraseAll b.index children)).edit j (·.push b) =
        .node j type args (eraseAll b.index children ++ [b]) :=
        edit_self (r := node j type args _) _
      have rest := erase_exchange (r := node j type args children) fresh ne
      rw [exchange_of_ne (r := node j type args children) root away, erase_eq, erase_eq] at rest
      have siblings := (Rose.node.inj rest).2.2.2
      rw [left, exchange_of_ne (r := node j type args _) root away, erase_eq,
        erase_eq (r := node j type args children)]
      simp only [index_node, type_node, args_node, children_node] at siblings ⊢
      rw [right, List.map_append, eraseAll_append, siblings, List.map_singleton, exchange_first rfl,
        eraseAll_cons, if_neg notP, erase_id freshB, eraseAll_nil]
    · have left : (node j type args children).edit i (·.push p) =
        .node j type args (children.map (edit i (·.push p))) :=
        edit_of_ne (r := node j type args children) here _
      have right : (node j type args (eraseAll b.index children)).edit i (·.push b) =
        .node j type args ((eraseAll b.index children).map (edit i (·.push b))) :=
          edit_of_ne (r := node j type args _) here _
      rw [left, exchange_of_ne (r := node j type args _) root away, erase_eq,
        erase_eq (r := node j type args children)]
      simp only [index_node, type_node, args_node, children_node, List.map_map]
      rw [right]
      rw [eraseAll_map (j := b.index) (h := edit i (·.push b)) ?_ ?_]
      · intro c hc same
        have stays : (c.edit i (·.push p)).index = c.index := index_edit_push i c p
        have first : (c.edit i (·.push p)).index ≠ p.index := by
          rw [stays, same]
          exact notP
        exact congrArg index (exchange_second first (stays.trans same))
      · intro c hc differs
        have stays : (c.edit i (·.push p)).index = c.index := index_edit_push i c p
        have first : (c.edit i (·.push p)).index ≠ p.index := by
          rw [stays]
          exact fun same => absent c hc (same ▸ c.index_mem_indices)
        have second : (c.edit i (·.push p)).index ≠ b.index := by
          rw [stays]
          exact differs
        refine ⟨?_, ih c hc (absent c hc) differs⟩
        rw [Function.comp_apply, index_exchange first second]
        exact first

end Rose

end BilingualC
