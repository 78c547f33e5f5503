import CountedLisp.GrowArray
import CountedLisp.Store.Access

/-!
# Vectors

A vector owns the objects in its slots. Access borrows: no count changes.
-/

namespace CountedLisp

namespace Slots

/-- Adds an owner to each of some objects, in order. -/
def retainAll : List Ref → Run Unit
  | [] => return ()
  | r :: rest => do
    let _ ← Object.retain r
    retainAll rest

/-- A new vector of some objects, each of which gets a new owner. -/
def make (items : List Ref) : Run Ref := do
  retainAll items
  Object.make (.vector items)

/-- The slots of a vector, for the given operation. -/
def contents (op : Text) (r : Ref) : Run (List Ref) := do
  match (← Object.expect op .vector r).payload with
  | .vector items => return items
  | _ => return []

/-- Puts other objects into a vector. -/
def fill (id : ObjectId) (items : List Ref) : Run Unit := do
  match (← get).heap.object? id with
  | some o => Run.modifyHeap (·.setObject id { o with payload := .vector items })
  | none => return ()

/-- Adds an object at the end of a vector, which takes over the caller's reference to it. -/
def append (r item : Ref) : Run Unit := do
  let items ← contents "vector-append" r
  match r with
  | none => return ()
  | some id => fill id (items ++ [item])

/-- The object in slot `i` of a vector. -/
def item (r : Ref) (i : Int) : Run Ref := do
  let items ← contents "vector-ref" r
  let found := if 0 ≤ i then items[i.toNat]? else none
  match found with
  | some v => return v
  | none => Run.fail (GrowArray.outOfRange "vector-ref" i items.length)

/-- The number of slots of a vector. -/
def length (r : Ref) : Run Nat := do
  return (← contents "vector-length" r).length

end Slots

end CountedLisp
