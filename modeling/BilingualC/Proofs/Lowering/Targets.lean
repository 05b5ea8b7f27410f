import Mathlib
import BilingualC.Proofs.Lowering.Slots

/-!
# Labels and functions as targets

A jump to a label that is not placed yet, and a call of a function that is not defined yet, leave a
slot with the label or the function. The slots are filled when the label is placed or the function
starts.
-/

namespace BilingualC.Lowering

variable {g : Lowering} {held other : List Nat} {M : List Int} {X : List Exit} {L : Links}

/-! ## Labels -/

/-- What is known about a label. -/
def labelOf (g : Lowering) (id : Int) : LabelState :=
  (g.labels.find? fun l => l.identifier == id).getD ⟨id, none, []⟩

/-- Replaces what is known about a label. -/
def setLabel (g : Lowering) (l : LabelState) : Lowering :=
  g.withLabels (l :: g.labels.filter fun k => k.identifier != l.identifier)

/-- A jump to a label. -/
def jumpTo (g : Lowering) (id : Int) : Lowering :=
  match (g.labelOf id).address with
  | some address => g.push [Operation.code .branch, address]
  | none =>
    (g.fork .branch).setLabel
      { g.labelOf id with waiting := (g.labelOf id).waiting ++ [g.here + 1] }

/-- The session with the address of a label, if there is such a label. -/
def sessionWith (s : Session) (id : Int) (address : Int) : Session :=
  match s.setDisplacement id address with
  | .ok changed => changed
  | .error _ => s

/-- A label is placed here. -/
def place (g : Lowering) (id : Int) : Lowering :=
  { (g.setLabel { g.labelOf id with address := some g.here, waiting := [] }).fill
    (g.labelOf id).waiting g.here with
    session := sessionWith g.session id g.here }

@[simp] theorem here_setLabel (l : LabelState) : (g.setLabel l).here = g.here := rfl
@[simp] theorem frames_setLabel (l : LabelState) : (g.setLabel l).frames = g.frames := rfl
@[simp] theorem session_setLabel (l : LabelState) : (g.setLabel l).session = g.session := rfl
@[simp] theorem calls_setLabel (l : LabelState) : (g.setLabel l).pendingCalls = g.pendingCalls :=
  rfl

theorem identifier_labelOf (id : Int) : (g.labelOf id).identifier = id := by
  cases found : g.labels.find? fun l => l.identifier == id with
  | none => simp [labelOf, found]
  | some l => simpa [labelOf, found] using List.find?_some found

/-- A label is unknown, or it stands among the labels. -/
theorem labelOf_cases (g : Lowering) (id : Int) :
    g.labelOf id ∈ g.labels ∨
      (g.labelOf id = ⟨id, none, []⟩ ∧ ∀ l ∈ g.labels, l.identifier ≠ id) := by
  cases found : g.labels.find? fun l => l.identifier == id with
  | none =>
    refine .inr ⟨by simp [labelOf, found], fun l mem same => ?_⟩
    simpa [same] using List.find?_eq_none.mp found l mem
  | some l => exact .inl (by simpa [labelOf, found] using List.mem_of_find?_eq_some found)

theorem labelOf_of_mem (names : (g.labels.map (·.identifier)).Nodup) {l : LabelState}
    (mem : l ∈ g.labels) : g.labelOf l.identifier = l := by
  rcases labelOf_cases g l.identifier with known | ⟨_, other⟩
  · exact List.inj_on_of_nodup_map names known mem (identifier_labelOf _)
  · exact absurd rfl (other l mem)

theorem labelOf_setLabel_same {l : LabelState} {id : Int} (same : l.identifier = id) :
    (g.setLabel l).labelOf id = l := by
  simp [labelOf, setLabel, withLabels, same]

theorem labelOf_setLabel_ne {l : LabelState} {id : Int} (ne : id ≠ l.identifier) :
    (g.setLabel l).labelOf id = g.labelOf id := by
  have first : ¬ (l.identifier = id) := fun same => ne same.symm
  have same : (g.labels.filter fun k => k.identifier != l.identifier).find? (fun k =>
      k.identifier == id) = g.labels.find? fun k => k.identifier == id := by
    rw [List.find?_filter]
    congr 1
    funext k
    by_cases this : k.identifier = id <;> simp [this, ne]
  simp only [labelOf, setLabel, withLabels, List.find?_cons, beq_eq_false_iff_ne.mpr first, same]

/-- The slots that wait for labels, those of one label first. -/
theorem waiting_perm (names : (g.labels.map (·.identifier)).Nodup) (id : Int) :
    (g.labels.flatMap (·.waiting)).Perm ((g.labelOf id).waiting ++
      (g.labels.filter fun k => k.identifier != id).flatMap (·.waiting)) := by
  rcases labelOf_cases g id with known | ⟨unknown, others⟩
  · obtain ⟨before, after, split⟩ := List.append_of_mem known
    have inList (side : List LabelState) (apart : ∀ k ∈ side, k.identifier ≠
        (g.labelOf id).identifier) : (side.filter fun k => k.identifier != id) = side := by
      rw [identifier_labelOf] at apart
      exact List.filter_eq_self.mpr fun k mem => by simpa using apart k mem
    have parts := names
    rw [split, List.map_append, List.map_cons, List.nodup_append] at parts
    obtain ⟨_, right, apart⟩ := parts
    have beforeOther : ∀ k ∈ before, k.identifier ≠ (g.labelOf id).identifier := fun k mem =>
      apart _ (List.mem_map_of_mem mem) _ List.mem_cons_self
    have afterOther : ∀ k ∈ after, k.identifier ≠ (g.labelOf id).identifier := fun k mem same =>
      (List.nodup_cons.mp right).1 (same ▸ List.mem_map_of_mem mem)
    have rest :
      ((before ++ g.labelOf id :: after).filter fun k => k.identifier != id) = before ++ after := by
      rw [List.filter_append, List.filter_cons, inList before beforeOther, inList after afterOther]
      simp [identifier_labelOf]
    generalize g.labelOf id = l at *
    rw [split, rest, List.flatMap_append, List.flatMap_append, List.flatMap_cons]
    exact List.perm_append_comm_assoc _ _ _
  · rw [unknown, List.filter_eq_self.mpr fun k mem => by simpa using others k mem]
    simp

theorem slots_setLabel_perm {l : LabelState} (names : (g.labels.map (·.identifier)).Nodup)
    (moved : (l.waiting ++ other).Perm ((g.labelOf l.identifier).waiting ++ held)) :
    ((g.setLabel l).slots ++ other).Perm (g.slots ++ held) := by
  rw [List.perm_iff_count] at moved ⊢
  intro p
  have waiting := List.perm_iff_count.mp (waiting_perm names l.identifier) p
  have moved := moved p
  simp only [slots, setLabel, withLabels, List.flatMap_cons, List.count_append] at waiting moved ⊢
  omega

/-- Slots may move between a label and the held ones. -/
theorem Tidy.setLabel {l : LabelState} (tidy : g.Tidy held)
    (moved : (l.waiting ++ other).Perm ((g.labelOf l.identifier).waiting ++ held))
    (empty : l.address.isSome = true → l.waiting = []) : (g.setLabel l).Tidy other where
  nodup := (slots_setLabel_perm tidy.names moved).nodup_iff.mpr tidy.nodup
  below p mem := tidy.below p ((slots_setLabel_perm tidy.names moved).mem_iff.mp mem)
  neat := tidy.neat
  names := by
    refine List.nodup_cons.mpr ⟨fun mem => ?_, tidy.names.sublist (List.filter_sublist.map _)⟩
    obtain ⟨k, kept, same⟩ := List.mem_map.mp mem
    simpa [same] using (List.mem_filter.mp kept).2
  placed k mem := by
    rcases List.mem_cons.mp mem with rfl | old
    · exact empty
    · exact tidy.placed k (List.mem_of_mem_filter old)
  numbers := tidy.numbers
  unknown := tidy.unknown

theorem Fits.setLabel {l : LabelState} (tidy : g.Tidy held) (fits : Fits M X L (g.setLabel l) other)
    (moved : (l.waiting ++ other).Perm ((g.labelOf l.identifier).waiting ++ held))
    (address : (g.labelOf l.identifier).address = none)
    (filled : ∀ p ∈ (g.labelOf l.identifier).waiting, M[p]? = some (L.label l.identifier)) :
    Fits M X L g held := by
  have either (k : LabelState) (mem : k ∈ g.labels) :
      k = g.labelOf l.identifier ∨ k ∈ (g.setLabel l).labels := by
    by_cases same : k.identifier = l.identifier
    · exact .inl (by rw [← same, labelOf_of_mem tidy.names mem])
    · exact .inr (List.mem_cons_of_mem _ (List.mem_filter.mpr ⟨mem, by simpa using same⟩))
  refine ⟨fun i inside free => fits.kept i inside fun mem =>
    free ((slots_setLabel_perm tidy.names moved).mem_iff.mp mem), fits.exits, ?_, ?_, fits.calls,
    fits.functions⟩
  · intro k mem a known
    rcases either k mem with rfl | kept
    · rw [address] at known
      exact absurd known (by simp)
    · exact fits.placed k kept a known
  · intro k mem p waits
    rcases either k mem with rfl | kept
    · rw [identifier_labelOf]
      exact filled p waits
    · exact fits.waiting k kept p waits

@[simp] theorem here_jumpTo (id : Int) : (g.jumpTo id).here = g.here + 2 := by
  rw [jumpTo]
  split <;> simp

@[simp] theorem frames_jumpTo (id : Int) : (g.jumpTo id).frames = g.frames := by
  rw [jumpTo]
  split <;> rfl

theorem Tidy.jumpTo (tidy : g.Tidy held) (id : Int) : (g.jumpTo id).Tidy held := by
  rw [Lowering.jumpTo]
  cases known : (g.labelOf id).address with
  | some address => exact tidy.push _
  | none =>
    refine Tidy.setLabel (tidy.fork .branch) ?_ (by simp [known])
    have same : (g.fork .branch).labelOf id = g.labelOf id := rfl
    simp only [identifier_labelOf]
    exact List.perm_iff_count.mpr fun p => by simp [same, List.count_cons]

theorem Fits.jumpTo {id : Int} (tidy : g.Tidy held) (fits : Fits M X L (g.jumpTo id) held) :
    Fits M X L g held ∧ CellsAt M g.here [Operation.code .branch, L.label id] := by
  rw [Lowering.jumpTo] at fits
  cases known : (g.labelOf id).address with
  | some address =>
    rw [known] at fits
    obtain ⟨before, cells⟩ := fits.push tidy
    rcases labelOf_cases g id with mem | ⟨unknown, _⟩
    · have target := before.placed _ mem address known
      rw [identifier_labelOf] at target
      exact ⟨before, by rw [target]; exact cells⟩
    · simp [unknown] at known
  | none =>
    rw [known] at fits
    have filled := fits.waiting _ List.mem_cons_self
    simp only [identifier_labelOf] at filled
    have before := Fits.setLabel (tidy.fork .branch) fits
      (List.perm_iff_count.mpr fun p => by
        rw [show (g.fork .branch).labelOf (g.labelOf id).identifier = g.labelOf id by
          rw [identifier_labelOf]; rfl]
        simp [List.count_cons])
      (by rw [identifier_labelOf]; exact known)
      (fun p mem => by
        rw [identifier_labelOf] at mem ⊢
        exact filled p (List.mem_append_left _ mem))
    obtain ⟨first, op⟩ := before.fork tidy
    exact ⟨first, op, filled _ (by simp), trivial⟩

theorem sessionWith_functions (s : Session) (id address : Int) :
    (sessionWith s id address).functions = s.functions := by
  rw [sessionWith]
  split
  case h_1 changed done =>
    simp only [Session.setDisplacement, Session.changeIdentifier, bind, Except.bind, pure,
      Except.pure] at done
    split at done
    · exact absurd done (by simp)
    · split at done
      · exact absurd done (by simp)
      · cases done
        rfl
  case h_2 => rfl

@[simp] theorem here_place (id : Int) : (g.place id).here = g.here := size_foldl_set _ _ _

theorem Tidy.place (tidy : g.Tidy held) (id : Int) : (g.place id).Tidy held := by
  have moved : (g.setLabel { g.labelOf id with address := some g.here, waiting := [] }).Tidy
      ((g.labelOf id).waiting ++ held) :=
    tidy.setLabel (by simp [identifier_labelOf]) (by simp)
  have filled := moved.fill g.here
  refine ⟨filled.nodup, filled.below, filled.neat, filled.names, filled.placed, filled.numbers, ?_⟩
  intro e mem
  have old := filled.unknown e mem
  rw [Session.functionAddress] at old ⊢
  simp only [Lowering.place, sessionWith_functions]
  exact old

theorem Fits.place {id : Int} (tidy : g.Tidy held) (unplaced : (g.labelOf id).address = none)
    (fits : Fits M X L (g.place id) held) : Fits M X L g held ∧ L.label id = g.here := by
  have moved : (g.setLabel { g.labelOf id with address := some g.here, waiting := [] }).Tidy
      ((g.labelOf id).waiting ++ held) :=
    tidy.setLabel (by simp [identifier_labelOf]) (by simp)
  have target := fits.placed _ List.mem_cons_self g.here rfl
  simp only [identifier_labelOf] at target
  have same : Fits M X L ((g.setLabel { g.labelOf id with
      address := some g.here
      waiting := [] }).fill (g.labelOf id).waiting g.here) held := by
    refine ⟨fits.kept, fits.exits, fits.placed, fits.waiting, fits.calls, fun n known => ?_⟩
    have all := fits.functions n
    simp only [Lowering.place, Session.functionAddress, sessionWith_functions] at all
    exact all known
  obtain ⟨before, filled⟩ := same.fill moved
  refine ⟨Fits.setLabel tidy before (by simp [identifier_labelOf]) ?_ ?_, target⟩
  · rw [identifier_labelOf]
    exact unplaced
  · simp only [identifier_labelOf, target]
    exact filled

/-! ## Calls -/

/-- The slots that wait for functions, with one more slot for a function. -/
def addPending (calls : List (Int × List Nat)) (number : Int) (p : Nat) : List (Int × List Nat) :=
  match calls.lookup number with
  | none => calls ++ [(number, [p])]
  | some slots => calls.map fun (k, old) => if k == number then (k, slots ++ [p]) else (k, old)

/-- A call of a function. -/
def callTo (g : Lowering) (number : Int) : Lowering :=
  if g.session.functionAddress number != 0 then
    g.push [Operation.code .callTarget, g.session.functionAddress number]
  else
    (g.fork .callTarget).withCalls (addPending g.pendingCalls number (g.here + 1))

section Pending

variable {calls : List (Int × List Nat)} {number : Int} {p : Nat}

/-- The slot joins those of its function, or the function gets its first slot. -/
theorem addPending_cases (numbers : (calls.map (·.1)).Nodup) (number : Int) (p : Nat) :
    (number ∉ calls.map (·.1) ∧ addPending calls number p = calls ++ [(number, [p])]) ∨
      ∃ before old after, calls = before ++ (number, old) :: after ∧
        addPending calls number p = before ++ (number, old ++ [p]) :: after := by
  cases found : calls.lookup number with
  | none =>
    refine .inl ⟨fun mem => ?_, by rw [addPending, found]⟩
    obtain ⟨e, mem, same⟩ := List.mem_map.mp mem
    simpa [same] using List.lookup_eq_none_iff.mp found e mem
  | some old =>
    obtain ⟨before, after, rfl, fresh⟩ := List.lookup_eq_some_iff.mp found
    refine .inr ⟨before, old, after, rfl, ?_⟩
    have stays (side : List (Int × List Nat)) (apart : ∀ e ∈ side, e.1 ≠ number) :
        (side.map fun (k, slots) => if k == number then (k, old ++ [p]) else (k, slots)) = side :=
        by
      conv_rhs => rw [← List.map_id side]
      exact List.map_congr_left fun e mem => by simp [apart e mem]
    rw [List.map_append, List.map_cons, List.nodup_append] at numbers
    obtain ⟨_, right, apart⟩ := numbers
    have beforeOther : ∀ e ∈ before, e.1 ≠ number := fun e mem =>
      apart _ (List.mem_map_of_mem mem) _ List.mem_cons_self
    have afterOther : ∀ e ∈ after, e.1 ≠ number := fun e mem same =>
      (List.nodup_cons.mp right).1 (List.mem_map.mpr ⟨e, mem, same⟩)
    rw [addPending, found]
    simp only [List.map_append, List.map_cons, beq_self_eq_true, if_true, stays before beforeOther,
      stays after afterOther]

theorem key_of_addPending {e : Int × List Nat} (mem : e ∈ addPending calls number p) :
    e.1 = number ∨ e.1 ∈ calls.map (·.1) := by
  rw [addPending] at mem
  split at mem
  · rw [List.mem_append, List.mem_singleton] at mem
    rcases mem with old | rfl
    · exact .inr (List.mem_map_of_mem old)
    · exact .inl rfl
  · obtain ⟨⟨k, old⟩, there, rfl⟩ := List.mem_map.mp mem
    refine .inr (List.mem_map.mpr ⟨(k, old), there, ?_⟩)
    dsimp only
    split <;> rfl

theorem addPending_perm (numbers : (calls.map (·.1)).Nodup) (number : Int) (p : Nat) :
    ((addPending calls number p).flatMap (·.2)).Perm (p :: calls.flatMap (·.2)) := by
  rw [List.perm_iff_count]
  intro q
  rcases addPending_cases numbers number p with ⟨_, same⟩ | ⟨before, old, after, rfl, same⟩
  · simp [same, List.count_cons]
  · simp [same, List.count_cons]
    omega

theorem nodup_addPending (numbers : (calls.map (·.1)).Nodup) :
    ((addPending calls number p).map (·.1)).Nodup := by
  rcases addPending_cases numbers number p with ⟨fresh, same⟩ | ⟨before, old, after, rfl, same⟩
  · rw [same, List.map_append]
    exact List.nodup_append.mpr ⟨numbers, by simp, fun k known n new eq => by
      simp only [List.map_cons, List.map_nil, List.mem_singleton] at new
      exact fresh (new ▸ eq ▸ known)⟩
  · simpa [same] using numbers

theorem mem_addPending (numbers : (calls.map (·.1)).Nodup) {e : Int × List Nat}
    (mem : e ∈ addPending calls number p) : e.1 = number ∨ e ∈ calls := by
  rcases addPending_cases numbers number p with ⟨_, same⟩ | ⟨before, old, after, rfl, same⟩
  · rw [same, List.mem_append, List.mem_singleton] at mem
    rcases mem with known | rfl
    · exact .inr known
    · exact .inl rfl
  · rw [same] at mem
    simp only [List.mem_append, List.mem_cons] at mem ⊢
    rcases mem with known | rfl | known
    · exact .inr (.inl known)
    · exact .inl rfl
    · exact .inr (.inr (.inr known))

/-- The slots of a function are still its slots. -/
theorem addPending_old (numbers : (calls.map (·.1)).Nodup) {e : Int × List Nat} (mem : e ∈ calls)
    (number : Int) (p : Nat) :
    ∃ now ∈ addPending calls number p, now.1 = e.1 ∧ ∀ q ∈ e.2, q ∈ now.2 := by
  rcases addPending_cases numbers number p with ⟨_, same⟩ | ⟨before, old, after, rfl, same⟩
  · exact ⟨e, by simp [same, mem], rfl, fun _ => id⟩
  · simp only [List.mem_append, List.mem_cons] at mem
    rcases mem with known | rfl | known
    · exact ⟨e, by simp [same, known], rfl, fun _ => id⟩
    · exact ⟨(number, old ++ [p]), by simp [same], rfl, fun q waits => List.mem_append_left _ waits⟩
    · exact ⟨e, by simp [same, known], rfl, fun _ => id⟩

theorem addPending_new (numbers : (calls.map (·.1)).Nodup) (number : Int) (p : Nat) :
    ∃ now ∈ addPending calls number p, now.1 = number ∧ p ∈ now.2 := by
  rcases addPending_cases numbers number p with ⟨_, same⟩ | ⟨before, old, after, rfl, same⟩
  · exact ⟨(number, [p]), by simp [same], rfl, by simp⟩
  · exact ⟨(number, old ++ [p]), by simp [same], rfl, by simp⟩

end Pending

@[simp] theorem here_callTo (number : Int) : (g.callTo number).here = g.here + 2 := by
  rw [callTo]
  split
  · simp
  · exact here_fork _

@[simp] theorem frames_callTo (number : Int) : (g.callTo number).frames = g.frames := by
  rw [callTo]
  split <;> rfl

@[simp] theorem session_callTo (number : Int) : (g.callTo number).session = g.session := by
  rw [callTo]
  split <;> rfl

@[simp] theorem labels_callTo (number : Int) : (g.callTo number).labels = g.labels := by
  rw [callTo]
  split <;> rfl

theorem slots_call_perm (numbers : (g.pendingCalls.map (·.1)).Nodup) (number : Int) (p : Nat)
    (held : List Nat) : ((g.withCalls (addPending g.pendingCalls number p)).slots ++ held).Perm
    (g.slots ++ p :: held) := by
  rw [List.perm_iff_count]
  intro q
  have added := List.perm_iff_count.mp (addPending_perm numbers number p) q
  simp only [slots, withCalls, List.count_append, List.count_cons] at added ⊢
  omega

theorem Tidy.callTo (tidy : g.Tidy held) (number : Int) : (g.callTo number).Tidy held := by
  rw [Lowering.callTo]
  split
  · exact tidy.push _
  · next unknown =>
    have reserved := tidy.fork .callTarget
    have order := slots_call_perm (g := g.fork .callTarget) tidy.numbers number
      (g.here + 1) held
    refine ⟨order.nodup_iff.mpr reserved.nodup,
      fun q mem => reserved.below q (order.mem_iff.mp mem),
      tidy.neat, tidy.names, tidy.placed, nodup_addPending tidy.numbers, fun e mem => ?_⟩
    rcases mem_addPending tidy.numbers mem with same | old
    · have zero : g.session.functionAddress number = 0 := by simpa using unknown
      rw [same]
      exact zero
    · exact tidy.unknown e old

theorem Fits.callTo {number : Int} (tidy : g.Tidy held) (fits : Fits M X L (g.callTo number) held) :
    Fits M X L g held ∧ CellsAt M g.here [Operation.code .callTarget, L.function number] := by
  rw [Lowering.callTo] at fits
  split at fits
  · next known =>
    obtain ⟨before, cells⟩ := fits.push tidy
    rw [before.functions number (by simpa using known)]
    exact ⟨before, cells⟩
  · have order := slots_call_perm (g := g.fork .callTarget) tidy.numbers number
      (g.here + 1) held
    have reserved : Fits M X L (g.fork .callTarget) ((g.here + 1) :: held) := by
      refine ⟨fun i inside free => fits.kept i inside fun mem => free (order.mem_iff.mp mem),
        fits.exits, fits.placed, fits.waiting, fun e mem q waits => ?_, fits.functions⟩
      obtain ⟨now, there, same, all⟩ := addPending_old tidy.numbers mem number (g.here + 1)
      rw [← same]
      exact fits.calls now there q (all q waits)
    obtain ⟨before, op⟩ := reserved.fork tidy
    obtain ⟨now, there, same, waits⟩ := addPending_new tidy.numbers number (g.here + 1)
    have filled := fits.calls now there _ waits
    rw [same] at filled
    exact ⟨before, op, filled, trivial⟩

end BilingualC.Lowering
