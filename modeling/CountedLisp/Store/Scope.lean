import CountedLisp.Store.Access

/-!
# Scopes

A scope binds names to objects and owns one reference to each of them; it also owns the scope
around it, which thus lives at least as long. Names are looked up from the inside out.

A scope is entered into the registry of the scope around it, so that all scopes below the global
scope of a workspace are in the registry of that workspace.
-/

namespace CountedLisp

namespace Scope

/-! ### Making scopes -/

/-- A new scope without bindings, owned by whoever makes it. -/
def new (name : Text) (serial : Nat) (parent : ScopeRef) (registry : Option RegistryId) : Scope :=
  { name := name, serial := serial, parent := parent, bindings := [], refs := 1, dead := false,
    registry := registry }

/-- The registry of a scope. -/
def registryOf (h : Heap) (s : ScopeRef) : Option RegistryId :=
  (h.getScope? s).bind (·.registry)

/-- The heap with a new scope inside of another one, and its number. The scope is entered into the
registry of the scope around it. -/
def enter (name : Text) (serial : Nat) (parent : ScopeRef) (h : Heap) : ScopeId × Heap :=
  let registry := registryOf h parent
  let (id, h) := h.addScope (new name serial parent registry)
  (id, h.updateRegistry registry (Registry.insert serial id))

/-- A new scope inside of another one, owned by the caller. The scope around it gets a new owner.
The serial number is used up even if that is a breach. -/
def make (parent : ScopeRef) : Run ScopeId := do
  let serial ← Run.updateHeap fun h => (h.serial + 1, { h with serial := h.serial + 1 })
  let name : Text := "env" ++ Text.ofNat serial
  let _ ← Scope.retain parent
  let id ← Run.updateHeap (enter name serial parent)
  Run.traceScope name "new environment"
  return id

/-- The name of a scope. -/
def nameOf (id : ScopeId) : Run Text := do
  return ((← get).heap.scope? id).elim [] (·.name)

/-! ### Bindings -/

/-- Bindings with the value of a name replaced, or with the name added at the end. -/
def put (name : Text) (value : Ref) : List (Text × Ref) → List (Text × Ref)
  | [] => [(name, value)]
  | (n, v) :: rest => if n = name then (n, value) :: rest else (n, v) :: put name value rest

/-- The living scope that a reference points to. -/
def expect (op : Text) (s : ScopeRef) : Run (ScopeId × Scope) := do
  match s, (← get).heap.getScope? s with
  | some id, some scope =>
    if scope.dead then
      Run.fail (.of .typeMismatch op "live environment" ("destroyed " ++ scope.name))
    else return (id, scope)
  | _, _ => Run.fail (.of .typeMismatch op "environment" "nil")

/-- The heap with a name bound in a scope. -/
def store (id : ScopeId) (name : Text) (value : Ref) (h : Heap) : Heap :=
  match h.scope? id with
  | some scope => h.setScope id { scope with bindings := put name value scope.bindings }
  | none => h

/-- Binds a name in a scope to a value, which gets a new owner. The value that the name was bound
to in this scope before loses it. -/
def bind (s : ScopeRef) (name : Text) (value : Ref) : Run Unit := do
  let (id, scope) ← expect "bind" s
  let _ ← Object.retain value
  Run.modifyHeap (store id name value)
  match scope.get? name with
  | some old => Object.release old
  | none => return ()

/-- The first of some scopes that binds a name, with the value. -/
def search (h : Heap) (name : Text) (scopes : List ScopeId) : Option (Ref × ScopeId) :=
  scopes.findSome? fun id => ((h.scope? id).bind (·.get? name)).map fun v => (v, id)

/-- Whether a scope is alive. -/
def isAlive (h : Heap) (id : ScopeId) : Bool :=
  match h.scope? id with
  | some scope => !scope.dead
  | none => false

/-- The value of a name and the scope that binds it, searched for from a scope outwards up to the
first destroyed one. -/
def resolve? (h : Heap) (s : ScopeRef) (name : Text) : Option (Ref × ScopeId) :=
  search h name ((h.chainFrom s).takeWhile (isAlive h))

/-- The failure of a name that is not bound. -/
def unbound (op name : Text) : Failure :=
  .of .unboundVariable op "bound variable" name

/-- The value of a name, which is borrowed. -/
def lookup (s : ScopeRef) (name : Text) : Run Ref := do
  match resolve? (← get).heap s name with
  | some (v, _) => return v
  | none =>
    let _ ← expect "lookup" s
    Run.fail (unbound "lookup" name)

/-- Replaces the value of a name in the first scope outwards that binds it. The new value gets an
owner, the old one loses it. -/
def assign (s : ScopeRef) (name : Text) (value : Ref) : Run Ref := do
  let _ ← expect "assign" s
  let heap := (← get).heap
  match search heap name (heap.chainFrom s) with
  | none => Run.fail (unbound "assign" name)
  | some (old, id) =>
    let _ ← Object.retain value
    Run.modifyHeap (store id name value)
    Object.release old
    Object.make .unspecified

/-! ### Moving a scope -/

/-- The heap with a binding added at the end of a scope. -/
def append (id : ScopeId) (name : Text) (value : Ref) (h : Heap) : Heap :=
  match h.scope? id with
  | some scope => h.setScope id { scope with bindings := scope.bindings ++ [(name, value)] }
  | none => h

/-- Adds bindings to a scope, one after the other; each value gets a new owner. -/
def appendAll (id : ScopeId) : List (Text × Ref) → Run Unit
  | [] => return ()
  | (name, value) :: rest => do
    let _ ← Object.retain value
    Run.modifyHeap (append id name value)
    appendAll id rest

/-- Moves the bindings of a scope into a new one inside the same scope. The caller's reference to
the old scope is given up. -/
def adopt (s : ScopeRef) : Run ScopeId := do
  let (_, scope) ← expect "adopt" s
  let moved ← make scope.parent
  appendAll moved scope.bindings
  Scope.release s
  return moved

end Scope

end CountedLisp
