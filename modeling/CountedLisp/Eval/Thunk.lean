import CountedLisp.Store.Counting

/-!
# Thunks

A thunk defers the evaluation of a piece of program until its value is asked for. It is run at most
once to success: the value is kept, and the scope that it was made in is given up, since it is
needed no longer. A thunk that fails stays as it was and may be tried again.

Running code and calling procedures one level deeper is left to an `Engine`, so that everything
here is defined without recursion through the evaluator.
-/

namespace CountedLisp

/-- How to go on one level deeper. -/
structure Engine where
  /-- Runs a piece of program in a scope. The result is owned by the caller. -/
  run : Code → ScopeRef → Run Ref
  /-- Calls an object with arguments, which are borrowed. The result is owned by the caller. -/
  call : Ref → List Ref → Run Ref

/-- The engine that goes no deeper. -/
def Engine.none : Engine :=
  { run := fun _ _ => throw .exhausted
    call := fun _ _ => throw .exhausted }

namespace Thunk

/-- A new thunk in a scope, which gets a new owner. -/
def make (code : Code) (scope : ScopeRef) : Run Ref := do
  let scope ← Scope.retain scope
  Object.make (.thunk { code := code, progress := .pending scope })

/-- The thunk that a reference points to, with its number and whether it has been destroyed. -/
def find? (h : Heap) (r : Ref) : Option (ObjectId × Object × Thunk) :=
  match r with
  | none => none
  | some id =>
    match h.object? id with
    | some o =>
      match o.payload with
      | .thunk t => some (id, o, t)
      | _ => none
    | none => none

/-- Notes that a thunk is going to be evaluated. -/
def enter (id : ObjectId) (w : World) : World :=
  let again := w.frames.any (·.owner = id)
  (w.note fun c => { c with reentered := c.reentered || again }).witness (.entered id again)

/-- Keeps the value of a thunk in the place of what it holds. -/
def keep (id : ObjectId) (o : Object) (t : Thunk) (value : Ref) (w : World) : World :=
  let kept := { o with payload := .thunk { t with progress := .done value } }
  let nested := w.nested || !w.heap.isPlain value
  ({ w with heap := w.heap.setObject id kept, nested := nested }.note fun c =>
    { c with abandoned := c.abandoned || o.dead }).witness (.returned id o.dead)

/-- Keeps the value of a thunk and gives up the scope that it still holds. -/
def settle (r : Ref) (value : Ref) (w : World) : World :=
  match find? w.heap r with
  | none => w
  | some (id, o, t) =>
    match t.progress with
    | .pending scope => (keep id o t value w).releaseScope scope
    | .done _ => keep id o t value w

/-- The value that a thunk keeps. -/
def value (h : Heap) (r : Ref) : Ref :=
  match find? h r with
  | some (_, _, { progress := .done v, .. }) => v
  | _ => none

/-- The value of a thunk, with a new owner: the caller. An object that is no thunk is its own value
and its count does not change. -/
def force (engine : Engine) (r : Ref) : Run Ref := do
  match find? (← get).heap r with
  | none => return r
  | some (id, o, t) =>
    if o.dead then
      Run.fail (.of .typeMismatch "force" "live EVALUABLE" "released EVALUABLE")
    else
      match t.progress with
      | .done v => Object.retain v
      | .pending scope =>
        modify (enter id)
        let v ← Run.within ⟨id, scope⟩ (engine.run t.code scope)
        modify (settle r v)
        Object.retain (value (← get).heap r)

end Thunk

end CountedLisp
