import Mathlib
import BilingualC.Proofs.Arena.Block
import BilingualC.Token

/-!
# Places of trees in the source

A tree lies on the tokens that it was read from, and its location goes from the start of the first
of them to the end of the last one. `Row` says that locations lie one after the other, and
`Rose.Nested` that this is so for the children of every node, within the tokens of the node. Tokens
are known by their locations: a ruler is the list of them.

Where the locations of the tokens are not empty and increase, those of nested trees nest.
-/

namespace BilingualC

/-! ## Locations on a ruler -/

/-- A location goes from the start of a token to the end of the same or a later one. -/
def Location.LiesOn (ruler : List Location) (i j : Nat) (loc : Location) : Prop :=
  i ≤ j ∧ ∃ first last, ruler[i]? = some first ∧ ruler[j]? = some last ∧ loc = .span first last

section LiesOn

variable {ruler : List Location} {i j k l : Nat} {a b loc : Location}

theorem Location.LiesOn.single (token : ruler[i]? = some loc) : loc.LiesOn ruler i i :=
  ⟨le_refl i, loc, loc, token, token, rfl⟩

/-- A range that starts with one location and ends with another one. -/
theorem Location.LiesOn.span (first : a.LiesOn ruler i j) (last : b.LiesOn ruler k l)
    (order : i ≤ l) : (Location.span a b).LiesOn ruler i l := by
  obtain ⟨-, f, g, start, -, rfl⟩ := first
  obtain ⟨-, u, v, -, stop, rfl⟩ := last
  exact ⟨order, f, v, start, stop, rfl⟩

theorem Location.LiesOn.inside (lies : loc.LiesOn ruler i j) : j < ruler.length := by
  obtain ⟨-, -, last, -, stop, -⟩ := lies
  exact (List.getElem?_eq_some_iff.mp stop).1

end LiesOn

/-! ## Locations in a row -/

/-- Locations lie one after the other, from one token on and before another one. -/
def Row (ruler : List Location) : Nat → Nat → List Location → Prop
  | start, stop, [] => start ≤ stop
  | start, stop, loc :: rest =>
    ∃ i j, start ≤ i ∧ loc.LiesOn ruler i j ∧ Row ruler (j + 1) stop rest

namespace Row

variable {ruler : List Location} {p q s t : Nat} {loc ending : Location} {ls ms : List Location}

theorem le (row : Row ruler p q ls) : p ≤ q := by
  induction ls generalizing p with
  | nil => exact row
  | cons loc ls ih =>
    obtain ⟨i, j, low, lies, later⟩ := row
    have := ih later
    have := lies.1
    omega

theorem widen (row : Row ruler p q ls) (low : s ≤ p) (high : q ≤ t) : Row ruler s t ls := by
  induction ls generalizing p s with
  | nil => exact low.trans (row.trans high)
  | cons loc ls ih =>
    obtain ⟨i, j, start, lies, later⟩ := row
    exact ⟨i, j, low.trans start, lies, ih later (le_refl _)⟩

theorem append (first : Row ruler p q ls) (second : Row ruler q s ms) :
    Row ruler p s (ls ++ ms) := by
  induction ls generalizing p with
  | nil => exact second.widen first (le_refl s)
  | cons loc ls ih =>
    obtain ⟨i, j, start, lies, later⟩ := first
    exact ⟨i, j, start, lies, ih later⟩

theorem split (row : Row ruler p q (ls ++ ms)) : ∃ m, Row ruler p m ls ∧ Row ruler m q ms := by
  induction ls generalizing p with
  | nil => exact ⟨p, le_refl p, row⟩
  | cons loc ls ih =>
    obtain ⟨i, j, start, lies, later⟩ := row
    obtain ⟨m, first, second⟩ := ih later
    exact ⟨m, ⟨i, j, start, lies, first⟩, second⟩

theorem mem (row : Row ruler p q ls) (mem : loc ∈ ls) : ∃ i j, p ≤ i ∧
    loc.LiesOn ruler i j ∧ j < q := by
  induction ls generalizing p with
  | nil => cases mem
  | cons first ls ih =>
    obtain ⟨i, j, low, lies, later⟩ := row
    rcases List.mem_cons.mp mem with rfl | inside
    · exact ⟨i, j, low, lies, later.le⟩
    · obtain ⟨k, l, behind, other, high⟩ := ih later inside
      have order := lies.1
      exact ⟨k, l, by omega, other, high⟩

theorem single {i j : Nat} (low : p ≤ i) (lies : loc.LiesOn ruler i j) (high : j < q) :
    Row ruler p q [loc] :=
  ⟨i, j, low, lies, high⟩

/-- Some of the locations lie in a row, too. -/
theorem sublist (row : Row ruler p q ls) (fewer : ms.Sublist ls) : Row ruler p q ms := by
  induction fewer generalizing p with
  | slnil => exact row
  | cons loc _ ih =>
    obtain ⟨i, j, start, lies, later⟩ := row
    have := lies.1
    exact (ih later).widen (by omega) (le_refl q)
  | cons_cons loc _ ih =>
    obtain ⟨i, j, start, lies, later⟩ := row
    exact ⟨i, j, start, lies, ih later⟩

/-- A row starts with its first location. -/
theorem head (row : Row ruler p q (loc :: ls)) : ∃ i j, p ≤ i ∧ j < q ∧ loc.LiesOn ruler i j ∧
    Row ruler i q (loc :: ls) := by
  obtain ⟨i, j, low, lies, later⟩ := row
  exact ⟨i, j, low, later.le, lies, i, j, le_refl i, lies, later⟩

/-- A row ends with its last location. -/
theorem last (row : Row ruler p q (ls ++ [ending])) : ∃ i j, p ≤ i ∧ j < q ∧
    ending.LiesOn ruler i j ∧ Row ruler p (j + 1) (ls ++ [ending]) := by
  obtain ⟨m, first, i, j, low, lies, high⟩ := row.split
  exact ⟨i, j, first.le.trans low, high, lies, first.append (.single low lies (Nat.lt_succ_self j))⟩

/-- The range from the first to the last location of a row. -/
theorem bounds (row : Row ruler p q (loc :: ls)) {ms : List Location}
    {ending : Location} (ends : loc :: ls = ms ++ [ending]) : ∃ i j, p ≤ i ∧ j < q ∧
    (Location.span loc ending).LiesOn ruler i j ∧ Row ruler i (j + 1) (loc :: ls) := by
  obtain ⟨i, j, low, -, starts, whole⟩ := row.head
  obtain ⟨k, l, inside, high, stops, all⟩ := (ends ▸ whole).last
  exact ⟨i, l, low, high, starts.span stops (inside.trans stops.1), ends ▸ all⟩

end Row

/-! ## Nested trees -/

namespace Rose

variable {ruler : List Location} {x y : Rose} {xs ys ops : List Rose} {loc : Location}

/-- The location of a node, which is its last two arguments. -/
def location (x : Rose) : Location :=
  if x.args.length < 2 then .none else ⟨x.arg (x.args.length - 2), x.arg (x.args.length - 1)⟩

theorem location_of_args {args : List Int} (same : x.args = args ++ [loc.start, loc.stop]) :
    x.location = loc := by
  simp [location, arg, same]

/-- Every node lies on some tokens, and its children lie in a row on tokens among these. -/
def Nested (ruler : List Location) (x : Rose) : Prop :=
  ∀ y ∈ x.nodes, ∃ i j, y.location.LiesOn ruler i j ∧ Row ruler i (j + 1) (y.children.map location)

theorem nested_of_node {i j : Nat} (lies : x.location.LiesOn ruler i j)
    (row : Row ruler i (j + 1) (x.children.map location))
    (below : ∀ y ∈ x.children, y.Nested ruler) : x.Nested ruler := by
  intro y mem
  rw [nodes_eq, List.mem_cons, List.mem_flatMap] at mem
  rcases mem with rfl | ⟨z, child, inside⟩
  · exact ⟨i, j, lies, row⟩
  · exact below z child y inside

theorem Nested.child (nested : x.Nested ruler) (mem : y ∈ x.children) : y.Nested ruler :=
  fun z inside => nested z (mem_nodes_child mem inside)

/-- A tree takes the place of another one in the source. -/
structure InPlaceOf (x y : Rose) : Prop where
  location : y.location = x.location
  nested : ∀ ruler, x.Nested ruler → y.Nested ruler

theorem inPlaceOf_self (x : Rose) : x.InPlaceOf x := ⟨rfl, fun _ => id⟩

theorem locations_inPlaceOf (same : List.Forall₂ InPlaceOf xs ys) :
    ys.map location = xs.map location := by
  induction same with
  | nil => rfl
  | cons first _ ih => rw [List.map_cons, List.map_cons, first.location, ih]

theorem nested_inPlaceOf (same : List.Forall₂ InPlaceOf xs ys) (nested : ∀ x ∈ xs, x.Nested ruler) :
    ∀ y ∈ ys, y.Nested ruler := by
  induction same with
  | nil => exact nofun
  | cons first _ ih =>
    obtain ⟨here, others⟩ := List.forall_mem_cons.mp nested
    exact List.forall_mem_cons.mpr ⟨first.nested ruler here, ih others⟩

/-- Children that take the place of those of another node, in a node with its location. -/
theorem inPlaceOf_of_children (located : y.location = x.location)
    (same : List.Forall₂ InPlaceOf x.children y.children) : x.InPlaceOf y := by
  refine ⟨located, fun ruler nested => ?_⟩
  obtain ⟨i, j, lies, row⟩ := nested x x.mem_nodes_self
  exact nested_of_node (located ▸ lies) (locations_inPlaceOf same ▸ row)
    (nested_inPlaceOf same fun c mem => nested.child mem)

/-- A node has a location and is nested above operands that lie in a row there. -/
structure Spreads (loc : Location) (ops : List Rose) (x : Rose) : Prop where
  location : x.location = loc
  nested : ∀ ruler i j, loc.LiesOn ruler i j → Row ruler i (j + 1) (ops.map Rose.location) →
    (∀ o ∈ ops, o.Nested ruler) → x.Nested ruler

theorem spreads_of_children (located : x.location = loc)
    (same : List.Forall₂ InPlaceOf ops x.children) : x.Spreads loc ops := by
  refine ⟨located, fun ruler i j lies row nested => ?_⟩
  exact nested_of_node (located ▸ lies) (locations_inPlaceOf same ▸ row)
    (nested_inPlaceOf same nested)

theorem spreads_self (x : Rose) : x.Spreads x.location [x] :=
  ⟨rfl, fun _ _ _ _ _ nested => nested x List.mem_cons_self⟩

/-- What is nested above no operands is nested above any. -/
theorem Spreads.above (spreads : x.Spreads loc []) (ops : List Rose) : x.Spreads loc ops :=
  ⟨spreads.location, fun ruler i j lies _ _ =>
    spreads.nested ruler i j lies (Nat.le_succ_of_le lies.1) nofun⟩

/-- Operands may have taken the place of others. -/
theorem Spreads.after (spreads : x.Spreads loc ys) (same : List.Forall₂ InPlaceOf ops ys) :
    x.Spreads loc ops := by
  refine ⟨spreads.location, fun ruler i j lies row nested => ?_⟩
  exact spreads.nested ruler i j lies (locations_inPlaceOf same ▸ row)
    (nested_inPlaceOf same nested)

end Rose

/-! ## Rising rulers -/

/-- No location is empty, and each starts where the one before has ended, or behind it. -/
structure Rising (ruler : List Location) : Prop where
  filled : ∀ loc ∈ ruler, loc.start < loc.stop
  apart : ruler.Pairwise fun a b => a.stop ≤ b.start

namespace Rising

variable {ruler : List Location} {p q i j k l : Nat} {a b loc : Location} {ls : List Location}

theorem order (rising : Rising ruler) (first : ruler[i]? = some a) (second : ruler[j]? = some b)
    (le : i ≤ j) : a.start ≤ b.start ∧ a.stop ≤ b.stop ∧ (i < j → a.stop ≤ b.start) := by
  obtain ⟨inI, rfl⟩ := List.getElem?_eq_some_iff.mp first
  obtain ⟨inJ, rfl⟩ := List.getElem?_eq_some_iff.mp second
  have filledI := rising.filled _ (List.getElem_mem inI)
  have filledJ := rising.filled _ (List.getElem_mem inJ)
  rcases Nat.lt_or_eq_of_le le with before | rfl
  · have apart := List.pairwise_iff_getElem.mp rising.apart i j inI inJ before
    exact ⟨by omega, by omega, fun _ => apart⟩
  · exact ⟨le_refl _, le_refl _, fun before => absurd before (lt_irrefl i)⟩

theorem lies_filled (rising : Rising ruler) (lies : loc.LiesOn ruler i j) :
    loc.start < loc.stop := by
  obtain ⟨le, first, last, start, stop, rfl⟩ := lies
  have filled := rising.filled first (List.mem_of_getElem? start)
  exact filled.trans_le (rising.order start stop le).2.1

theorem lies_inside (rising : Rising ruler) (outer : a.LiesOn ruler i l)
    (inner : b.LiesOn ruler j k) (low : i ≤ j) (high : k ≤ l) :
    a.start ≤ b.start ∧ b.stop ≤ a.stop := by
  obtain ⟨-, _, _, start, stop, rfl⟩ := outer
  obtain ⟨-, _, _, start', stop', rfl⟩ := inner
  exact ⟨(rising.order start start' low).1, (rising.order stop' stop high).2.1⟩

theorem lies_apart (rising : Rising ruler) (first : a.LiesOn ruler i j)
    (second : b.LiesOn ruler k l) (before : j < k) : a.stop ≤ b.start := by
  obtain ⟨-, _, _, -, stop, rfl⟩ := first
  obtain ⟨-, _, _, start, -, rfl⟩ := second
  exact (rising.order stop start before.le).2.2 before

theorem row_apart (rising : Rising ruler) (row : Row ruler p q ls) :
    ls.Pairwise fun a b => a.stop ≤ b.start := by
  induction ls generalizing p with
  | nil => exact .nil
  | cons a ls ih =>
    obtain ⟨i, j, -, lies, later⟩ := row
    refine .cons (fun b mem => ?_) (ih later)
    obtain ⟨k, l, low, other, -⟩ := later.mem mem
    exact rising.lies_apart lies other low

end Rising

namespace Rose

variable {ruler : List Location} {x y : Rose}

/-- Where the locations of tokens rise, the location of a nested node is not empty and holds those
of its children, which are disjoint and in the order of the children. -/
theorem Nested.spans (nested : x.Nested ruler) (rising : Rising ruler) (mem : y ∈ x.nodes) :
    y.location.start < y.location.stop ∧
      (∀ z ∈ y.children, y.location.start ≤ z.location.start ∧ z.location.stop ≤ y.location.stop) ∧
      y.children.Pairwise fun a b => a.location.stop ≤ b.location.start := by
  obtain ⟨i, j, lies, row⟩ := nested y mem
  refine ⟨rising.lies_filled lies, fun z child => ?_, List.pairwise_map.mp (rising.row_apart row)⟩
  obtain ⟨k, l, low, inner, high⟩ := row.mem (List.mem_map_of_mem child)
  exact rising.lies_inside lies inner low (Nat.le_of_lt_succ high)

end Rose

end BilingualC
