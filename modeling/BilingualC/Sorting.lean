/-!
# Sorting

Quicksort that looks for patterns. Short ranges are sorted by insertion; longer ones are split at a
median of three or of nine items. A range that seems to be sorted is only mended, one that seems to
run backwards is reversed first, items that are equal to the item before the range are set aside
together, and after an uneven split a few items are scattered. When too many splits were uneven the
range becomes a heap.

Equal items do not keep their order, so the order that `sort` gives them is part of what it does.
-/

namespace BilingualC.Sorting

variable {α : Type} (less : α → α → Bool)

/-- Says whether the item at one place belongs before the item at another. -/
def before (xs : Array α) (i j : Nat) : Bool :=
  match xs[i]?, xs[j]? with
  | some x, some y => less x y
  | _, _ => false

/-! ## Insertion -/

/-- Moves the item at a place down to where it belongs, but not below `floor`. -/
def moveDown (floor : Nat) : Nat → Array α → Array α
  | 0, xs => xs
  | j + 1, xs =>
    if floor < j + 1 && before less xs (j + 1) j then moveDown floor j (xs.swapIfInBounds (j + 1) j)
    else xs

/-- Moves the item below a place up to where it belongs, over at most `left` items. -/
def moveUp : Nat → Nat → Array α → Array α
  | 0, _, xs => xs
  | left + 1, j, xs =>
    if before less xs j (j - 1) then moveUp left (j + 1) (xs.swapIfInBounds j (j - 1)) else xs

/-- Sorts the places from `a` up to `b`, item by item. -/
def insertion (a b : Nat) (xs : Array α) : Array α :=
  (List.range' (a + 1) (b - (a + 1))).foldl (fun xs i => moveDown less a i xs) xs

/-! ## Heaps -/

/-- Moves an item down a heap of `size` items that starts at `first`. -/
def siftDown (first size : Nat) : Nat → Nat → Array α → Array α
  | 0, _, xs => xs
  | left + 1, top, xs =>
    let child := 2 * top + 1
    if size ≤ child then xs
    else
      let child := if child + 1 < size &&
        before less xs (first + child) (first + child + 1) then child + 1 else child
      if before less xs (first + top) (first + child) then
        siftDown first size left child (xs.swapIfInBounds (first + top) (first + child))
      else xs

/-- Sorts the places from `a` up to `b` through a heap with the greatest item at its top. -/
def heap (a b : Nat) (xs : Array α) : Array α :=
  let size := b - a
  let xs :=
    (List.range ((size - 1) / 2 + 1)).reverse.foldl (fun xs i => siftDown less a size size i xs) xs
  (List.range size).reverse.foldl
    (fun xs i => siftDown less a i size 0 (xs.swapIfInBounds a (a + i))) xs

/-! ## Choosing where to split -/

/-- Two places in the order of their items, and one more if they had to be exchanged. -/
def ordered (xs : Array α) (i j swaps : Nat) : Nat × Nat × Nat :=
  if before less xs j i then (j, i, swaps + 1) else (i, j, swaps)

/-- The place of the median of three items, with the exchanges that it took. -/
def median (xs : Array α) (i j k swaps : Nat) : Nat × Nat :=
  let (i, j, swaps) := ordered less xs i j swaps
  let (j, _, swaps) := ordered less xs j k swaps
  let (_, j, swaps) := ordered less xs i j swaps
  (j, swaps)

/-- The length from which on a range is split at a median of nine items. -/
def longRange : Nat := 50

/-- The place to split at, with the exchanges that it took to find it. -/
def pivot (xs : Array α) (a b : Nat) : Nat × Nat :=
  let quarter := (b - a) / 4
  let (i, j, k) := (a + quarter, a + quarter * 2, a + quarter * 3)
  if b - a < 8 then (j, 0)
  else if b - a < longRange then median less xs i j k 0
  else
    let (i, swaps) := median less xs (i - 1) i (i + 1) 0
    let (j, swaps) := median less xs (j - 1) j (j + 1) swaps
    let (k, swaps) := median less xs (k - 1) k (k + 1) swaps
    median less xs i j k swaps

/-- The number of exchanges that shows a range that runs backwards. -/
def backwards : Nat := 12

/-! ## Splitting -/

/-- The first place from `i` to `j` that has no property, or the one after them. -/
def rise (holds : Nat → Bool) (i j : Nat) : Nat :=
  if i ≤ j && holds i then rise holds (i + 1) j else i
termination_by j + 1 - i
decreasing_by simp_all; omega

/-- The last place from `i` to `j` that has no property, or the one before them. -/
def fall (holds : Nat → Bool) (i : Nat) : Nat → Nat
  | 0 => 0
  | j + 1 => if i ≤ j + 1 && holds (j + 1) then fall holds i j else j + 1

/-- Exchanges items that are on the wrong side: `low` tells which may stay below and `high` which
may stay above. Gives the two places where the sides meet and whether anything was exchanged. -/
def exchange (low high : Array α → Nat → Bool) (moved : Bool) :
    Nat → Array α → Nat → Nat → Array α × Nat × Nat × Bool
  | 0, xs, i, j => (xs, i, j, moved)
  | left + 1, xs, i, j =>
    let i := rise (low xs) i j
    let j := fall (high xs) i j
    if j < i then (xs, i, j, moved)
    else exchange low high true left (xs.swapIfInBounds i j) (i + 1) (j - 1)

/-- Puts the lesser items before the item at a place and the others behind it. Gives its new place
and whether the range was split that way already. -/
def split (a b place : Nat) (xs : Array α) : Array α × Nat × Bool :=
  let (xs, _, j, moved) :=
    exchange (fun xs i => before less xs i a) (fun xs j => !before less xs j a) false
    (b - a) (xs.swapIfInBounds a place) (a + 1) (b - 1)
  (xs.swapIfInBounds j a, j, !moved)

/-- Puts the items that are not greater than the item at a place first. Gives the place of the first
greater one. -/
def splitEqual (a b place : Nat) (xs : Array α) : Array α × Nat :=
  let (xs, i, _, _) :=
    exchange (fun xs i => !before less xs a i) (fun xs j => before less xs a j) false
    (b - a) (xs.swapIfInBounds a place) (a + 1) (b - 1)
  (xs, i)

/-! ## Patterns -/

/-- Mends up to `steps` places where a range is out of order, from place `i` on. Gives whether the
range is sorted then; short ranges are not changed. -/
def mend (a b : Nat) : Nat → Nat → Array α → Array α × Bool
  | 0, _, xs => (xs, false)
  | steps + 1, i, xs =>
    let i := rise (fun i => !before less xs i (i - 1)) i (b - 1)
    if i == b then (xs, true)
    else if b - a < longRange then (xs, false)
    else
      let xs := xs.swapIfInBounds i (i - 1)
      let xs := if 2 ≤ i - a then moveDown less 0 (i - 1) xs else xs
      let xs := if 2 ≤ b - i then moveUp less (b - (i + 1)) (i + 1) xs else xs
      mend a b steps i xs

/-- Turns a range around. -/
def reverse (a b : Nat) (xs : Array α) : Array α :=
  (List.range ((b - a) / 2)).foldl (fun xs n => xs.swapIfInBounds (a + n) (b - 1 - n)) xs

/-- The number after another in a sequence without visible order. -/
def scramble (x : UInt64) : UInt64 :=
  let x := x ^^^ (x <<< 13)
  let x := x ^^^ (x >>> 7)
  x ^^^ (x <<< 17)

/-- The number of binary digits of a number. -/
def bitLength (n : Nat) : Nat := if n == 0 then 0 else n.log2 + 1

/-- Exchanges three items in the middle of a range with others. -/
def scatter (a b : Nat) (xs : Array α) : Array α :=
  let length := b - a
  if length < 8 then xs
  else
    let middle := a + length / 4 * 2
    let step := fun (xs, random) n =>
      let random := scramble random
      let other := random.toNat % Nat.pow 2 (bitLength length)
      let other := if length ≤ other then other - length else other
      (xs.swapIfInBounds (middle - 1 + n) (a + other), random)
    ((List.range 3).foldl step (xs, UInt64.ofNat length)).1

/-! ## The whole -/

/-- The length up to which a range is sorted by insertion. -/
def shortRange : Nat := 12

/-- What is known about the split that led to a range. -/
structure Split where
  /-- Both sides were of fair length. -/
  even : Bool
  /-- Nothing had to be exchanged. -/
  quiet : Bool
deriving DecidableEq, Repr

/-- Sorts the places from `a` up to `b`; after `limit` uneven splits a heap is used. Every step
makes the range shorter, so that `left` need not be more than its length. -/
def sortRange : Nat → Split → (limit a b : Nat) → Array α → Array α
  | 0, _, _, _, _, xs => xs
  | left + 1, last, limit, a, b, xs =>
    if b - a ≤ shortRange then insertion less a b xs
    else if limit == 0 then heap less a b xs
    else
      let (xs, limit) := if last.even then (xs, limit) else (scatter a b xs, limit - 1)
      let (place, swaps) := pivot less xs a b
      let (xs, place) :=
        if swaps == backwards then (reverse a b xs, b - 1 - (place - a)) else (xs, place)
      let (xs, sorted) :=
        if last.even && last.quiet &&
          (swaps == 0 || swaps == backwards) then mend less a b 5 (a + 1) xs
        else (xs, false)
      if sorted then xs
      else if 0 < a && !before less xs (a - 1) place then
        let (xs, middle) := splitEqual less a b place xs
        sortRange left last limit middle b xs
      else
        let (xs, middle, quiet) := split less a b place xs
        let fair := (b - a) / 8
        if middle - a < b - middle then
          let xs := sortRange left ⟨true, true⟩ limit a middle xs
          sortRange left ⟨fair ≤ middle - a, quiet⟩ limit (middle + 1) b xs
        else
          let xs := sortRange left ⟨true, true⟩ limit (middle + 1) b xs
          sortRange left ⟨fair ≤ b - middle, quiet⟩ limit a middle xs

/-- Sorts a list by a strict order. -/
def sort (xs : List α) : List α :=
  (sortRange less (xs.length + 1) ⟨true, true⟩ (bitLength xs.length) 0 xs.length xs.toArray).toList

end BilingualC.Sorting
