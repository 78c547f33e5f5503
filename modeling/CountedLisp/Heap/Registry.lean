import CountedLisp.Heap.Object

/-!
# Registries

A registry keeps track of the living scopes of a workspace, the one with the greatest serial number
first, so that a new scope is entered at the front.
-/

namespace CountedLisp

/-- Scopes by their serial numbers, in descending order. -/
abbrev Registry := List (Nat × ScopeId)

namespace Registry

/-- The registry with a scope entered under its serial number. -/
def insert (serial : Nat) (id : ScopeId) : Registry → Registry
  | [] => [(serial, id)]
  | (n, s) :: rest =>
    if n < serial then (serial, id) :: (n, s) :: rest
    else if serial = n then (serial, id) :: rest
    else (n, s) :: insert serial id rest

/-- The registry without the scope of a serial number. -/
def erase (serial : Nat) (r : Registry) : Registry :=
  r.filter fun e => e.1 != serial

end Registry

end CountedLisp
