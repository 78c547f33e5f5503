import CountedLisp.Builtin
import CountedLisp.Datum.Basic
import CountedLisp.Foreign.Signature
import CountedLisp.Tag
import CountedLisp.Token.Literal

/-!
# Objects and scopes

Objects and scopes live in a heap and refer to each other by their number in it. A reference to
an object may be nil, and so may a reference to a scope.

An object has a count of the references that others own to it, and a payload. What a payload owns
is listed by `Payload.owned`; what is left of it when the object is destroyed is
`Payload.emptied`, which owns nothing. The empty list is the one payload whose objects are never
destroyed: their count does not change.

A scope is a list of bindings with a link to the scope around it. It owns the values of its
bindings and the scope around it.
-/

namespace CountedLisp

/-! ### References -/

/-- The number of an object in its heap. -/
structure ObjectId where
  index : Nat
  deriving DecidableEq, Inhabited

/-- The number of a scope in its heap. -/
structure ScopeId where
  index : Nat
  deriving DecidableEq, Inhabited

/-- The number of a registry in its heap. -/
structure RegistryId where
  index : Nat
  deriving DecidableEq, Inhabited

/-- A reference to an object, or nil. -/
abbrev Ref := Option ObjectId

/-- A reference to a scope, or nil. -/
abbrev ScopeRef := Option ScopeId

/-- A reference that can be given up: to an object or to a scope. -/
inductive Handle where
  | object (id : ObjectId)
  | scope (id : ScopeId)
  deriving DecidableEq

/-- The references to objects in a list, nil left out. -/
def Handle.objects (refs : List Ref) : List Handle :=
  refs.filterMap fun r => r.map Handle.object

/-- The reference to a scope, unless it is nil. -/
def Handle.ofScope (s : ScopeRef) : List Handle :=
  s.toList.map Handle.scope

/-! ### Payloads -/

/-- A piece of program that is run in a scope. -/
inductive Code where
  /-- A single expression. -/
  | expression (d : Datum)
  /-- Expressions in order, the last of which gives the value. -/
  | sequence (body : List Datum)

/-- A function of the program with the scope it was made in. -/
structure Closure where
  /-- The names that the arguments are bound to. -/
  params : List Text
  /-- Whether every call has to give one argument for each name. Otherwise names without argument
  stay unbound, and arguments without name are left out. -/
  strict : Bool
  /-- What a call evaluates. -/
  body : List Datum
  /-- The scope that the function was made in. -/
  scope : ScopeRef
  /-- The scopes of its calls so far, the last one first. They live as long as the function. -/
  calls : List ScopeId

/-- What can be called. -/
inductive Procedure where
  /-- A function of the program. -/
  | user (closure : Closure)
  /-- A function of the library. -/
  | library (f : Builtin)
  /-- A foreign function; its signature is gone after its destruction. -/
  | native (signature : Option Signature)

/-- How far a thunk has come. -/
inductive Progress where
  /-- It has not been evaluated and holds the scope to do so. -/
  | pending (scope : ScopeRef)
  /-- It has been evaluated and holds its value. -/
  | done (value : Ref)
  deriving DecidableEq

/-- A computation that is run once, when its value is first asked for. -/
structure Thunk where
  /-- What is run. -/
  code : Code
  /-- Whether it has been run. -/
  progress : Progress

/-- The contents of an object. -/
inductive Payload where
  /-- A constant. -/
  | constant (c : Constant)
  /-- A pair of references. -/
  | pair (left right : Ref)
  /-- The end of a list. -/
  | emptyList
  /-- A sequence of references. -/
  | vector (items : List Ref)
  /-- Something to call. -/
  | lambda (p : Procedure)
  /-- A deferred computation. -/
  | thunk (t : Thunk)
  /-- The value of what has no value. -/
  | unspecified

/-- The tag of a constant. -/
def Constant.tag : Constant → Tag
  | .integer _ => .integer
  | .double _ => .double
  | .boolean _ => .boolean
  | .char _ => .char
  | .string _ => .string

namespace Payload

/-- The tag of a payload. -/
def tag : Payload → Tag
  | .constant c => c.tag
  | .pair _ _ => .pair
  | .emptyList => .emptyList
  | .vector _ => .vector
  | .lambda _ => .lambda
  | .thunk _ => .evaluable
  | .unspecified => .unspecified

/-- Whether objects with this payload are exempt from counting. -/
def isImmortal : Payload → Bool
  | .emptyList => true
  | _ => false

end Payload

/-- The references that a procedure owns: the scopes of its calls in the order of the calls, then
the scope it was made in. -/
def Procedure.owned : Procedure → List Handle
  | .user c => c.calls.reverse.map Handle.scope ++ Handle.ofScope c.scope
  | .library _ | .native _ => []

/-- What is left of a procedure that has given up its references. -/
def Procedure.emptied : Procedure → Procedure
  | .user c => .user { c with scope := none, calls := [] }
  | .library f => .library f
  | .native _ => .native none

/-- The references that a thunk owns: its scope as long as it is pending, its value from then
on. -/
def Progress.owned : Progress → List Handle
  | .pending scope => Handle.ofScope scope
  | .done value => Handle.objects [value]

/-- What is left of a thunk that has given up its references. -/
def Progress.emptied : Progress → Progress
  | .pending _ => .pending none
  | .done _ => .done none

/-- What is left of a constant after its destruction: numbers and the like stay, a string loses
its bytes. -/
def Constant.emptied : Constant → Constant
  | .string _ => .string []
  | c => c

namespace Payload

/-- The references that a payload owns, in the order in which they are given up. -/
def owned : Payload → List Handle
  | .pair left right => Handle.objects [left, right]
  | .vector items => Handle.objects items
  | .lambda p => p.owned
  | .thunk t => t.progress.owned
  | .constant _ | .emptyList | .unspecified => []

/-- What is left of a payload that has given up its references. -/
def emptied : Payload → Payload
  | .constant c => .constant c.emptied
  | .pair _ _ => .pair none none
  | .emptyList => .emptyList
  | .vector _ => .vector []
  | .lambda p => .lambda p.emptied
  | .thunk t => .thunk { t with progress := t.progress.emptied }
  | .unspecified => .unspecified

@[simp] theorem owned_emptied (p : Payload) : p.emptied.owned = [] := by
  cases p with
  | lambda q => cases q <;> rfl
  | thunk t => cases h : t.progress <;> simp [emptied, owned, Progress.emptied, h] <;> rfl
  | _ => rfl

end Payload

/-! ### Objects -/

/-- An object of the heap. -/
structure Object where
  /-- How many references to the object are owned. -/
  refs : UInt32
  /-- Whether the object has been destroyed. -/
  dead : Bool
  /-- Its contents. -/
  payload : Payload

namespace Object

/-- A new object, owned by whoever makes it. -/
def new (p : Payload) : Object :=
  { refs := 1, dead := false, payload := p }

/-- The tag of an object. -/
def tag (o : Object) : Tag :=
  o.payload.tag

/-- The object after its destruction. -/
def destroyed (o : Object) : Object :=
  { refs := 0, dead := true, payload := o.payload.emptied }

end Object

/-! ### Scopes -/

/-- A scope of the heap. -/
structure Scope where
  /-- Its name in messages. -/
  name : Text
  /-- Its number among all scopes, in order of creation. -/
  serial : Nat
  /-- The scope around it. -/
  parent : ScopeRef
  /-- The names bound in it with their values, in order of definition. -/
  bindings : List (Text × Ref)
  /-- How many references to the scope are owned. -/
  refs : UInt32
  /-- Whether the scope has been destroyed. -/
  dead : Bool
  /-- The registry that keeps track of it, if any. -/
  registry : Option RegistryId

namespace Scope

/-- The references that a scope owns, in the order in which they are given up: the values of its
bindings, then the scope around it. -/
def owned (s : Scope) : List Handle :=
  Handle.objects (s.bindings.map (·.2)) ++ Handle.ofScope s.parent

/-- The scope after its destruction. -/
def destroyed (s : Scope) : Scope :=
  { s with parent := none, bindings := [], refs := 0, dead := true }

@[simp] theorem owned_destroyed (s : Scope) : s.destroyed.owned = [] := rfl

/-- The value bound to a name in this scope. -/
def get? (s : Scope) (name : Text) : Option Ref :=
  s.bindings.lookup name

/-- A scope in messages. -/
def text (s : Scope) : Text :=
  "<env " ++ s.name ++ ">"

end Scope

end CountedLisp
