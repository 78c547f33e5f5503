import CountedLisp.Heap.Registry

/-!
# Heaps

A heap holds all objects, scopes and registries. Nothing is ever taken out of it: a destroyed
object stays where it is, marked as dead, so that references to it can be told from references to
living objects.

Object number zero is the empty list of every heap.
-/

namespace CountedLisp

/-- Objects, scopes and registries, by their numbers. -/
structure Heap where
  /-- All objects, living and dead. -/
  objects : Array Object
  /-- All scopes, living and dead. -/
  scopes : Array Scope
  /-- The registries of the workspaces. -/
  registries : Array Registry
  /-- The serial number of the scope made last. -/
  serial : Nat

namespace Heap

/-- The heap that holds the empty list and nothing else. -/
def initial : Heap :=
  { objects := #[Object.new .emptyList], scopes := #[], registries := #[], serial := 0 }

/-- The empty list of every heap. -/
def emptyList : Ref :=
  some ⟨0⟩

/-! ### Objects -/

/-- The object with a number. -/
def object? (h : Heap) (id : ObjectId) : Option Object :=
  h.objects[id.index]?

/-- The object that a reference points to; nil points to none. -/
def get? (h : Heap) (r : Ref) : Option Object :=
  r.bind h.object?

/-- The heap with an object replaced. -/
def setObject (h : Heap) (id : ObjectId) (o : Object) : Heap :=
  { h with objects := h.objects.setIfInBounds id.index o }

/-- The heap with a new object, and its number. -/
def addObject (h : Heap) (p : Payload) : ObjectId × Heap :=
  (⟨h.objects.size⟩, { h with objects := h.objects.push (Object.new p) })

theorem object?_eq_none_iff {h : Heap} {id : ObjectId} :
    h.object? id = none ↔ h.objects.size ≤ id.index := by
  simp [object?]

theorem lt_size_of_object? {h : Heap} {id : ObjectId} {o : Object} (ho : h.object? id = some o) :
    id.index < h.objects.size := by
  refine Nat.lt_of_not_le fun hge => ?_
  rw [object?_eq_none_iff.mpr hge] at ho
  cases ho

theorem object?_setObject_self {h : Heap} {id : ObjectId} {o : Object} (o' : Object)
    (ho : h.object? id = some o) : (h.setObject id o').object? id = some o' := by
  simp [object?, setObject, lt_size_of_object? ho]

theorem object?_setObject_ne {h : Heap} {id id' : ObjectId} (o' : Object) (hne : id' ≠ id) :
    (h.setObject id o').object? id' = h.object? id' := by
  have hidx : id.index ≠ id'.index := fun he => hne (by cases id; cases id'; simp_all)
  simp [object?, setObject, hidx]

theorem object?_addObject_new (h : Heap) (p : Payload) :
    (h.addObject p).2.object? (h.addObject p).1 = some (Object.new p) := by
  simp [object?, addObject]

theorem object?_addObject_old {h : Heap} {id : ObjectId} (p : Payload)
    (hlt : id.index < h.objects.size) : (h.addObject p).2.object? id = h.object? id := by
  simp [object?, addObject, Array.getElem?_push, Nat.ne_of_lt hlt]

/-- Whether a reference points to a thunk, living or dead. -/
def isThunk (h : Heap) (r : Ref) : Bool :=
  match h.get? r with
  | some { payload := .thunk _, .. } => true
  | _ => false

/-- Whether a reference is nil or points to an object that is no thunk. -/
def isPlain (h : Heap) (r : Ref) : Bool :=
  r.all fun id => (h.object? id).any fun o => o.tag ≠ .evaluable

/-- Whether a reference points to a living object. -/
def isAlive (h : Heap) (r : Ref) : Bool :=
  match h.get? r with
  | some o => !o.dead
  | none => false

/-- The count of the object that a reference points to; zero for nil. -/
def refs (h : Heap) (r : Ref) : UInt32 :=
  match h.get? r with
  | some o => o.refs
  | none => 0

/-! ### Scopes -/

/-- The scope with a number. -/
def scope? (h : Heap) (id : ScopeId) : Option Scope :=
  h.scopes[id.index]?

/-- The scope that a reference points to; nil points to none. -/
def getScope? (h : Heap) (s : ScopeRef) : Option Scope :=
  s.bind h.scope?

/-- The heap with a scope replaced. -/
def setScope (h : Heap) (id : ScopeId) (s : Scope) : Heap :=
  { h with scopes := h.scopes.setIfInBounds id.index s }

/-- The heap with a new scope, and its number. -/
def addScope (h : Heap) (s : Scope) : ScopeId × Heap :=
  (⟨h.scopes.size⟩, { h with scopes := h.scopes.push s })

theorem scope?_eq_none_iff {h : Heap} {id : ScopeId} :
    h.scope? id = none ↔ h.scopes.size ≤ id.index := by
  simp [scope?]

theorem lt_size_of_scope? {h : Heap} {id : ScopeId} {s : Scope} (hs : h.scope? id = some s) :
    id.index < h.scopes.size := by
  refine Nat.lt_of_not_le fun hge => ?_
  rw [scope?_eq_none_iff.mpr hge] at hs
  cases hs

theorem scope?_setScope_self {h : Heap} {id : ScopeId} {s : Scope} (s' : Scope)
    (hs : h.scope? id = some s) : (h.setScope id s').scope? id = some s' := by
  simp [scope?, setScope, lt_size_of_scope? hs]

theorem scope?_setScope_ne {h : Heap} {id id' : ScopeId} (s' : Scope) (hne : id' ≠ id) :
    (h.setScope id s').scope? id' = h.scope? id' := by
  have hidx : id.index ≠ id'.index := fun he => hne (by cases id; cases id'; simp_all)
  simp [scope?, setScope, hidx]

theorem scope?_addScope_new (h : Heap) (s : Scope) :
    (h.addScope s).2.scope? (h.addScope s).1 = some s := by
  simp [scope?, addScope]

theorem scope?_addScope_old {h : Heap} {id : ScopeId} (s : Scope)
    (hlt : id.index < h.scopes.size) : (h.addScope s).2.scope? id = h.scope? id := by
  simp [scope?, addScope, Array.getElem?_push, Nat.ne_of_lt hlt]

@[simp] theorem scope?_setObject (h : Heap) (id : ObjectId) (o : Object) (s : ScopeId) :
    (h.setObject id o).scope? s = h.scope? s := rfl

@[simp] theorem object?_setScope (h : Heap) (id : ScopeId) (s : Scope) (o : ObjectId) :
    (h.setScope id s).object? o = h.object? o := rfl

@[simp] theorem scope?_addObject (h : Heap) (p : Payload) (s : ScopeId) :
    (h.addObject p).2.scope? s = h.scope? s := rfl

@[simp] theorem object?_addScope (h : Heap) (s : Scope) (o : ObjectId) :
    (h.addScope s).2.object? o = h.object? o := rfl

@[simp] theorem size_objects_setObject (h : Heap) (id : ObjectId) (o : Object) :
    (h.setObject id o).objects.size = h.objects.size := by
  simp [setObject]

@[simp] theorem size_scopes_setScope (h : Heap) (id : ScopeId) (s : Scope) :
    (h.setScope id s).scopes.size = h.scopes.size := by
  simp [setScope]

/-- A scope and the scopes around it, from the inside out. A scope is made after the scope around
it and so has the greater number. -/
def chain (h : Heap) (id : ScopeId) : List ScopeId :=
  match h.scope? id with
  | none => []
  | some s =>
    match s.parent with
    | none => [id]
    | some p => if p.index < id.index then id :: h.chain p else [id]
termination_by id.index

/-- The scopes from a reference outwards. -/
def chainFrom (h : Heap) : ScopeRef → List ScopeId
  | none => []
  | some id => h.chain id

/-! ### Registries -/

/-- The entries of a registry. -/
def registry (h : Heap) (id : RegistryId) : Registry :=
  h.registries[id.index]?.getD []

/-- The heap with a registry changed; a scope without registry changes none. -/
def updateRegistry (h : Heap) (id : Option RegistryId) (f : Registry → Registry) : Heap :=
  match id with
  | none => h
  | some id => { h with registries := h.registries.modify id.index f }

@[simp] theorem objects_updateRegistry (h : Heap) (id : Option RegistryId)
    (f : Registry → Registry) : (h.updateRegistry id f).objects = h.objects := by
  cases id <;> rfl

@[simp] theorem scopes_updateRegistry (h : Heap) (id : Option RegistryId)
    (f : Registry → Registry) : (h.updateRegistry id f).scopes = h.scopes := by
  cases id <;> rfl

@[simp] theorem object?_updateRegistry (h : Heap) (id : Option RegistryId)
    (f : Registry → Registry) (o : ObjectId) :
    (h.updateRegistry id f).object? o = h.object? o := by
  cases id <;> rfl

@[simp] theorem scope?_updateRegistry (h : Heap) (id : Option RegistryId)
    (f : Registry → Registry) (s : ScopeId) : (h.updateRegistry id f).scope? s = h.scope? s := by
  cases id <;> rfl

end Heap

end CountedLisp
