import CountedLisp.Workspace

/-!
# Scope trees

The active scopes as a tree: below each scope stand its bindings and, as the last branch, the scope
inside it. The bindings of the global scope are shown on request only.

The program builds the tree and leaves drawing it to a library for terminal output. The corners and
stems of `Tree.lines` are an assumption about this library.
-/

namespace CountedLisp

/-- A tree of lines. -/
inductive Tree where
  | node (line : Text) (branches : List Tree)

namespace Tree

mutual
/-- The lines of a tree after a prefix, as the library for terminal output is assumed to draw them;
the tree is the last of its siblings or not. -/
def lines (lead : Text) (last : Bool) : Tree → List Text
  | .node line branches =>
    let corner : Text := if last then "└" else "├"
    let stem : Text := if branches.isEmpty then "──" else "─┬"
    let below : Text := if last then "  " else "│ "
    (lead ++ corner ++ stem ++ line) :: linesAll (lead ++ below) branches
termination_by structural t => t

/-- The printed lines of trees side by side after a prefix. -/
def linesAll (lead : Text) : List Tree → List Text
  | [] => []
  | t :: ts => lines lead ts.isEmpty t ++ linesAll lead ts
termination_by structural ts => ts
end

end Tree

namespace ScopeTree

/-- The line of a binding. -/
def bindingLine (name : Text) (value : Ref) : Run Tree := do
  let heap := (← get).heap
  let text ← Object.print value
  return .node
    (name ++ " = " ++ text ++ " [" ++ Text.ofNat (heap.refs value).toNat ++ "]") []

/-- The lines of bindings. -/
def bindingLines : List (Text × Ref) → Run (List Tree)
  | [] => return []
  | (name, value) :: rest => do
    let line ← bindingLine name value
    return line :: (← bindingLines rest)

/-- The tree of scopes, each inside the one before it. -/
def build (hidden : Option ScopeId) : List ScopeId → Run (List Tree)
  | [] => return []
  | id :: inner => do
    match (← get).heap.scope? id with
    | none => build hidden inner
    | some s =>
      let bindings ← if hidden = some id then pure [] else bindingLines s.bindings
      let within ← build hidden inner
      let line := s.name ++ " (refs=" ++ Text.ofNat s.refs.toNat ++ ")"
      return [.node line (bindings ++ within)]

/-- Prints the number of living scopes and the tree of the active ones. -/
def print (ws : Workspace) (all : Bool) : Run Unit := do
  let current ← ws.current
  let chain := ((← get).heap.chain current).reverse
  let tree ← build (if all then none else some ws.globals) chain
  Run.print (Text.ofNat (ws.reachable (← get)) ++ " environments alive\n")
  let lines : List Text := Tree.linesAll [] tree ++ [[]]
  Run.print (lines.flatMap (· ++ [Text.byte '\n']))

end ScopeTree

end CountedLisp
