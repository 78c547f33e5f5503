import CountedLisp.World

/-!
# Counting references

A new object or scope has one reference, which is owned by whoever made it. `Object.retain` and
`Scope.retain` add an owner, `World.release` and `World.releaseScope` take one away.

What has been destroyed cannot get an owner again; to try it is a breach, and so is a reference to
nothing in the heap. The count of an object does not pass its maximum, which is a breach too, while
the count of a scope starts again from zero.
-/

namespace CountedLisp

namespace Run

/-- Changes the heap. -/
def modifyHeap (f : Heap → Heap) : Run Unit :=
  modify fun w => { w with heap := f w.heap }

/-- Changes the heap and gives a result of the change. -/
def updateHeap {α : Type} (f : Heap → α × Heap) : Run α :=
  modifyGet fun w =>
    let (a, heap) := f w.heap
    (a, { w with heap := heap })

end Run

/-- The greatest number of references that is counted. -/
def maxCount : UInt32 := 0xFFFFFFFF

/-- The breach of giving an owner to what is not in the heap. -/
def danglingBreach : Text :=
  "reference to nothing in the heap"

namespace Object

/-- A new object, owned by the caller. -/
def make (p : Payload) : Run Ref :=
  Run.updateHeap fun h =>
    let (id, h) := h.addObject p
    (some id, h)

/-- A new constant, owned by the caller. -/
def constant (c : Constant) : Run Ref :=
  make (.constant c)

/-- The breach of giving an owner to a destroyed object. -/
def releasedBreach (tag : Tag) : Failure :=
  .of .typeMismatch "retain" "live object" ("released " ++ tag.name)

/-- The breach of counting beyond the maximum. -/
def overflowBreach : Failure :=
  .of .indexOutOfRange "retain" "reference count in range" "reference count overflow"

/-- Adds an owner to an object and gives the object back. Nil and the empty list are not counted,
nor is anything in a world that does not reclaim. -/
def retain (r : Ref) : Run Ref := do
  match r with
  | none => return none
  | some id =>
    let w ← get
    match w.heap.object? id with
    | none => Run.breach danglingBreach
    | some o =>
      if o.payload.isImmortal || !w.reclaim then return r
      else if o.dead then Run.breach (releasedBreach o.tag).text
      else if o.refs = maxCount then Run.breach overflowBreach.text
      else
        Run.modifyHeap (·.setObject id { o with refs := o.refs + 1 })
        return r

/-- Takes an owner away from an object. -/
def release (r : Ref) : Run Unit :=
  modify (World.release r)

end Object

namespace Scope

/-- The record of conduct after adding an owner to a scope. -/
def countUp (s : Scope) (c : Conduct) : Conduct :=
  { c with wrapped := c.wrapped || s.refs = maxCount }

/-- Adds an owner to a scope and gives the scope back. Nil is not counted. -/
def retain (s : ScopeRef) : Run ScopeRef := do
  match s with
  | none => return none
  | some id =>
    match (← get).heap.scope? id with
    | none => Run.breach danglingBreach
    | some scope =>
      if scope.dead then Run.breach ("attempt to retain destroyed environment " ++ scope.name)
      else
        modify (World.note scope.countUp)
        Run.modifyHeap (·.setScope id { scope with refs := scope.refs + 1 })
        return s

/-- Takes an owner away from a scope. -/
def release (s : ScopeRef) : Run Unit :=
  modify (World.releaseScope s)

end Scope

end CountedLisp
