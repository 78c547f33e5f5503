import CountedLisp.Heap.Chain
import CountedLisp.Store.Access

/-!
# Pairs and lists

A pair owns its two sides. A list is a chain of pairs that ends with the empty list; each pair but
the first is owned by the one before it. Access to pairs and lists borrows: no count changes.
-/

namespace CountedLisp

namespace Pair

/-! ### Pairs -/

/-- A new pair of two objects, each of which gets the pair as a new owner. -/
def make (left right : Ref) : Run Ref := do
  let _ ← Object.retain left
  let _ ← Object.retain right
  Object.make (.pair left right)

/-- The sides of a pair, for the given operation. -/
def sides (op : Text) (r : Ref) : Run (Ref × Ref) := do
  match (← Object.expect op .pair r).payload with
  | .pair left right => return (left, right)
  | _ => return (none, none)

/-- The left side of a pair. -/
def left (r : Ref) : Run Ref := do
  return (← sides "car" r).1

/-- The right side of a pair. -/
def right (r : Ref) : Run Ref := do
  return (← sides "cdr" r).2

/-- The heap with the sides of a pair replaced. -/
def update (r : Ref) (left right : Ref) (h : Heap) : Heap :=
  match r with
  | none => h
  | some id =>
    match h.object? id with
    | some o => h.setObject id { o with payload := .pair left right }
    | none => h

/-- Replaces the left side of a pair; the new one gets an owner, the old one loses it. -/
def setLeft (r v : Ref) : Run Unit := do
  let (old, other) ← sides "set-car!" r
  let _ ← Object.retain v
  Run.modifyHeap (update r v other)
  Object.release old

/-- Replaces the right side of a pair; the new one gets an owner, the old one loses it. -/
def setRight (r v : Ref) : Run Unit := do
  let (other, old) ← sides "set-cdr!" r
  let _ ← Object.retain v
  Run.modifyHeap (update r other v)
  Object.release old

/-! ### Lists -/

/-- A new list of some objects, made from its end. Every item gets a new owner; the first pair is
owned by the caller. -/
def makeList : List Ref → Run Ref
  | [] => return Heap.emptyList
  | item :: rest => do
    let tail ← makeList rest
    let _ ← Object.retain item
    Object.make (.pair item tail)

/-- What a loop along a chain of pairs finds. -/
def along {α : Type} (r : Ref) (loop : Heap → (steps : Nat) → Ref → Option α) : Run α := do
  let h := (← get).heap
  Run.orExhausted (loop h (h.objects.size + 1) r)

/-- Whether an object is a list. -/
def isList (r : Ref) : Run Bool :=
  along r Heap.isList?

/-- The number of items of a list. -/
def length (r : Ref) : Run Nat := do
  if ← isList r then along r fun h => h.countPairs? 0
  else Object.mismatch "length" "list" r

/-- The failure of a place that a list does not have. -/
def noItem (r : Ref) (i : Int) : Run Ref := do
  let n ← length r
  Run.fail (.of .indexOutOfRange "list-ref" "index < length"
    ("index " ++ Text.ofInt i ++ " of length " ++ Text.ofNat n))

/-- The item of a list at place `i`. -/
def item (r : Ref) (i : Int) : Run Ref := do
  if ← isList r then
    if 0 ≤ i then
      match ← along r fun h => h.leftAt? i.toNat 0 with
      | some v => return v
      | none => noItem r i
    else noItem r i
  else Object.mismatch "list-ref" "list" r

/-- The items of a list. -/
def items (r : Ref) : Run (List Ref) := do
  let _ ← length r
  along r fun h => h.lefts? []

end Pair

end CountedLisp
