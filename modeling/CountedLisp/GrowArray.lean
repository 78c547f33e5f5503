import CountedLisp.Binary64.Arithmetic
import CountedLisp.Failure

/-!
# Growing arrays

A `GrowArray` is a sequence of elements with a capacity, the number of elements that it has room
for. Adding an element to a full array makes room first: at least four places, and one and a half
times the capacity from then on, which is computed as a double-precision product and rounded up.
Access outside of the array is a failure and changes nothing.
-/

namespace CountedLisp

/-- The least capacity that an array grows to. -/
def basicCapacity : Nat := 4

/-- The capacity that a full array of capacity `c` grows to. -/
def grownCapacity (c : Int) : Int :=
  if c < basicCapacity then basicCapacity
  else match ((Binary64.ofInt c).mul (Binary64.round false 3 2)).ceil? with
    | some n => (Binary64.toWord n).toInt
    | none => Int64.minValue.toInt

/-- A sequence with room for further elements. -/
structure GrowArray (α : Type) where
  /-- The elements. -/
  items : Array α
  /-- How many elements there is room for. -/
  capacity : Nat

namespace GrowArray

variable {α : Type}

/-- An empty array with room for `capacity` elements. -/
def empty (capacity : Int) : GrowArray α :=
  { items := #[], capacity := capacity.toNat }

/-- The elements in order. -/
def toList (a : GrowArray α) : List α :=
  a.items.toList

/-- The number of elements. -/
def size (a : GrowArray α) : Nat :=
  a.items.size

/-- The array with one more element at its end. -/
def push (a : GrowArray α) (x : α) : GrowArray α :=
  { items := a.items.push x
    capacity := if a.size = a.capacity then (grownCapacity a.capacity).toNat else a.capacity }

/-- The failure of an access at place `i` of `size` places. -/
def outOfRange (op : Text) (i : Int) (size : Nat) : Failure :=
  .of .indexOutOfRange op "index < size"
    ("index " ++ Text.ofInt i ++ " of size " ++ Text.ofNat size)

/-- Whether there is an element at place `i`. -/
def inRange (a : GrowArray α) (i : Int) : Bool :=
  0 ≤ i && i < a.size

/-- The element at place `i`. -/
def get? (a : GrowArray α) (i : Int) : Except Failure α :=
  if a.inRange i then
    match a.items[i.toNat]? with
    | some x => .ok x
    | none => .error (outOfRange "dynamic-array" i a.size)
  else .error (outOfRange "dynamic-array" i a.size)

/-- The array with the element at place `i` replaced. -/
def set? (a : GrowArray α) (i : Int) (x : α) : Except Failure (GrowArray α) :=
  if a.inRange i then .ok { a with items := a.items.setIfInBounds i.toNat x }
  else .error (outOfRange "dynamic-array" i a.size)

/-- The failure of taking an element out of an empty array. -/
def noElement : Failure :=
  .of .indexOutOfRange "dynamic-array" "non-empty array" "pop from empty array"

/-- The last element and the array without it. -/
def pop? (a : GrowArray α) : Except Failure (α × GrowArray α) :=
  match a.items.back? with
  | some x => .ok (x, { a with items := a.items.pop })
  | none => .error noElement

/-- Calls `f` for each of some elements, the first of which is at place `i`. -/
def eachFrom {m : Type → Type} [Monad m] (f : Nat → α → m Unit) : (i : Nat) → List α → m Unit
  | _, [] => return ()
  | i, x :: rest => do
    f i x
    eachFrom f (i + 1) rest

/-- Calls `f` for every place and the element there, in order. -/
def each {m : Type → Type} [Monad m] (a : GrowArray α) (f : Nat → α → m Unit) : m Unit :=
  eachFrom f 0 a.toList

/-- The array without its elements but with its capacity. -/
def clear (a : GrowArray α) : GrowArray α :=
  { a with items := #[] }

end GrowArray

end CountedLisp
