import CountedLisp.Eval.Basic
import CountedLisp.Stack

/-!
# Workspaces

A workspace has a global scope with the library functions, a stack of active scopes with the global
one at its bottom, and a registry of all its living scopes. The stack owns the scopes on it.

Closing a workspace gives up its scopes. Scopes that are still alive then are kept so by a cycle of
references, or by an owner outside; they are destroyed in the order in which they were made.
-/

namespace CountedLisp

/-- A workspace. -/
structure Workspace where
  /-- The global scope. -/
  globals : ScopeId
  /-- The active scopes. -/
  scopes : Stack ScopeId
  /-- The registry of the living scopes. -/
  registry : RegistryId

namespace Workspace

/-! ### Making a workspace -/

/-- Binds functions to names in a scope. -/
def install (scope : ScopeId) : Builtin.Table → Run Unit
  | [] => return ()
  | (name, f) :: rest => do
    let p ← Object.make (.lambda (.library f))
    let _ ← (Scope.bind (some scope) name p).attempt
    Object.release p
    install scope rest

/-- The global scope with a serial number. -/
def globalScope (serial : Nat) (registry : RegistryId) : Scope :=
  { name := "globals", serial := serial, parent := none, bindings := [], refs := 1, dead := false,
    registry := some registry }

/-- The heap with a new global scope and its registry, and their numbers. -/
def addGlobals (h : Heap) : (ScopeId × RegistryId) × Heap :=
  let registry : RegistryId := ⟨h.registries.size⟩
  let serial := h.serial + 1
  let (globals, h) := h.addScope (globalScope serial registry)
  ((globals, registry),
    { h with serial := serial, registries := h.registries.push [(serial, globals)] })

/-- A new workspace with the core library and the functions of some tables. Of two functions with
the same name the later one stays. -/
def make (tables : List Builtin.Table) : Run Workspace := do
  modify fun w => { w with traceRefs := w.flag "runtime.trace-refs" }
  let (globals, registry) ← Run.updateHeap addGlobals
  install globals (Builtin.core ++ tables.flatten)
  let size := ((← get).heap.scope? globals).elim 0 (·.bindings.length)
  Run.trace .runtime .debug (some (Text.ofString "globals"))
    ("global environment with " ++ Text.ofNat size ++ " builtins")
  return { globals := globals, scopes := Stack.empty.push globals, registry := registry }

/-! ### Active scopes -/

/-- The innermost active scope. -/
def current (ws : Workspace) : Run ScopeId :=
  match ws.scopes.peek? with
  | .ok s => return s
  | .error _ => Run.breach "attempt to access scope from empty stack"

/-- Makes a new scope inside the innermost active one and makes it active. -/
def pushScope (ws : Workspace) : Run (ScopeId × Workspace) := do
  let s ← Scope.make (some (← ws.current))
  Run.trace .runtime .debug (some (← Scope.nameOf s)) "pushing new scope"
  return (s, { ws with scopes := ws.scopes.push s })

/-- Gives up a scope that is active no longer. -/
def leave (s : ScopeId) : Run Unit := do
  Run.trace .runtime .debug none ("popping scope [" ++ (← Scope.nameOf s) ++ "]")
  Scope.release (some s)

/-- Ends the innermost active scope, unless it is the global one. -/
def popScope (ws : Workspace) : Run Workspace := do
  match ws.scopes.items with
  | s :: t :: rest =>
    leave s
    return { ws with scopes := ⟨t :: rest⟩ }
  | _ => Run.fail (.of .indexOutOfRange "pop-scope" "local scope" "stack underflow")

/-- The number of active scopes. -/
def depth (ws : Workspace) : Nat :=
  ws.scopes.size

/-- The number of living scopes. -/
def reachable (ws : Workspace) (w : World) : Nat :=
  (w.heap.registry ws.registry).length

/-! ### Closing a workspace -/

/-- Ends all active scopes but the last of some. -/
def leaveLocals : List ScopeId → Run Unit
  | s :: t :: rest => do
    leave s
    leaveLocals (t :: rest)
  | _ => return ()

/-- Destroys a scope although it may still be owned. -/
def expel (s : ScopeId) : Run Unit := do
  Run.trace .runtime .debug (some (← Scope.nameOf s)) "destroying unreleased environment"
  modify (World.destroy s)

/-- Destroys the scopes of a registry, always the one that was made first, until none is left, and
counts them. If a scope stays in the registry this does not end. -/
def drain (registry : RegistryId) : Run Nat := fun w =>
  match (w.heap.registry registry).getLast? with
  | none => .ok 0 w
  | some (_, s) =>
    match expel s w with
    | .error e w' => .error e w'
    | .ok _ w' =>
      if (w'.heap.registry registry).length < (w.heap.registry registry).length then
        match drain registry w' with
        | .error e w'' => .error e w''
        | .ok n w'' => .ok (n + 1) w''
      else .error .exhausted w'
termination_by w => (w.heap.registry registry).length

/-- Closes a workspace, and tells how many scopes had to be destroyed that were still owned. -/
def close (ws : Workspace) : Run (Nat × Workspace) := do
  leaveLocals ws.scopes.items
  Scope.release (some ws.globals)
  let forced ← drain ws.registry
  if 0 < forced then
    Run.trace .runtime .info none
      ("runtime closed, " ++ Text.ofNat forced ++ " environments destroyed forcibly")
  return (forced, { ws with scopes := Stack.empty })

end Workspace

end CountedLisp
