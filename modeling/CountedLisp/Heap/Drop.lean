import CountedLisp.Heap.Basic

/-!
# Giving up references

`Heap.drop` gives up a list of references, one after the other. If the last reference to an object
or scope is given up, it is destroyed: it is marked as dead, and the references that it owned are
given up next, before the rest of the list. The result tells what was destroyed, in order.

Destruction moves the references of what is destroyed from the heap to the list, and every step
takes one off the list. So the number of references in the heap and on the list together gets
smaller with each step, and `Heap.drop` ends on every heap, whatever cycles there are in it.
-/

namespace CountedLisp

/-- The destruction of an object or a scope. -/
inductive Demise where
  /-- An object of the given type was destroyed. -/
  | object (tag : Tag)
  /-- A scope of the given name was destroyed when it had so many bindings. -/
  | scope (name : Text) (bindings : Nat)
  deriving DecidableEq

namespace Heap

/-! ### One reference -/

/-- What giving up one reference leads to: the heap after it, the references that are to be given
up in turn, and what was destroyed. -/
structure Step where
  heap : Heap
  freed : List Handle := []
  demise : Option Demise := none

/-- Destroys a scope, whatever its count is; a dead scope stays as it is. -/
def destroyScope (h : Heap) (id : ScopeId) (s : Scope) : Step :=
  if s.dead then { heap := h }
  else
    { heap := (h.setScope id s.destroyed).updateRegistry s.registry (Registry.erase s.serial)
      freed := s.owned
      demise := some (.scope s.name s.bindings.length) }

/-- Gives up a reference to an object. -/
def dropObject (h : Heap) (id : ObjectId) : Step :=
  match h.object? id with
  | none => { heap := h }
  | some o =>
    if o.payload.isImmortal || o.refs = 0 then { heap := h }
    else if o.refs = 1 then
      { heap := h.setObject id o.destroyed
        freed := o.payload.owned
        demise := some (.object o.tag) }
    else { heap := h.setObject id { o with refs := o.refs - 1 } }

/-- Gives up a reference to a scope. -/
def dropScope (h : Heap) (id : ScopeId) : Step :=
  match h.scope? id with
  | none => { heap := h }
  | some s =>
    if s.refs = 0 then { heap := h }
    else
      let s' := { s with refs := s.refs - 1 }
      if s.refs = 1 then (h.setScope id s').destroyScope id s' else { heap := h.setScope id s' }

/-- Gives up one reference. -/
def dropOne (h : Heap) : Handle → Step
  | .object id => h.dropObject id
  | .scope id => h.dropScope id

/-! ### The number of owned references -/

/-- The number of references that the objects and scopes of a heap own. -/
def ownedCount (h : Heap) : Nat :=
  (h.objects.toList.flatMap (·.payload.owned)).length + (h.scopes.toList.flatMap (·.owned)).length

/-- Replacing an element takes out what it contributes and puts in what the new one does. -/
theorem perm_flatMap_set {α β : Type} (f : α → List β) (l : List α) (i : Nat) (a b : α)
    (h : l[i]? = some a) : ((l.set i b).flatMap f ++ f a).Perm (l.flatMap f ++ f b) := by
  induction l generalizing i with
  | nil => simp at h
  | cons x xs ih =>
    cases i with
    | zero =>
      simp only [List.getElem?_cons_zero, Option.some.injEq] at h
      subst h
      simp only [List.set_cons_zero, List.flatMap_cons]
      refine List.perm_append_comm.trans ?_
      rw [List.append_assoc]
      exact List.perm_append_comm.append_left _
    | succ i =>
      simp only [List.getElem?_cons_succ] at h
      simp only [List.set_cons_succ, List.flatMap_cons, List.append_assoc]
      exact (ih i h).append_left _

theorem ownedCount_setObject {h : Heap} {id : ObjectId} {o : Object} (o' : Object)
    (ho : h.object? id = some o) :
    (h.setObject id o').ownedCount + o.payload.owned.length =
      h.ownedCount + o'.payload.owned.length := by
  have ho' : h.objects.toList[id.index]? = some o := by
    simpa [object?] using ho
  have := (perm_flatMap_set (fun x : Object => x.payload.owned) _ _ _ o' ho').length_eq
  simp only [ownedCount, setObject, Array.toList_setIfInBounds, List.length_append] at this ⊢
  omega

theorem ownedCount_setScope {h : Heap} {id : ScopeId} {s : Scope} (s' : Scope)
    (hs : h.scope? id = some s) :
    (h.setScope id s').ownedCount + s.owned.length = h.ownedCount + s'.owned.length := by
  have hs' : h.scopes.toList[id.index]? = some s := by
    simpa [scope?] using hs
  have := (perm_flatMap_set (fun x : Scope => x.owned) _ _ _ s' hs').length_eq
  simp only [ownedCount, setScope, Array.toList_setIfInBounds, List.length_append] at this ⊢
  omega

@[simp] theorem ownedCount_updateRegistry (h : Heap) (id : Option RegistryId)
    (f : Registry → Registry) : (h.updateRegistry id f).ownedCount = h.ownedCount := by
  cases id <;> rfl

theorem freed_destroyScope {h : Heap} {id : ScopeId} {s : Scope} (hs : h.scope? id = some s) :
    (h.destroyScope id s).freed.length + (h.destroyScope id s).heap.ownedCount = h.ownedCount := by
  unfold destroyScope
  split
  · simp
  · have := ownedCount_setScope s.destroyed hs
    simp only [Scope.owned_destroyed, List.length_nil, Nat.add_zero] at this
    simp only [ownedCount_updateRegistry]
    omega

/-- **Conservation**: giving up one reference moves owned references from the heap to the list of
those to be given up next, and loses none. -/
theorem freed_dropOne (h : Heap) (x : Handle) :
    (h.dropOne x).freed.length + (h.dropOne x).heap.ownedCount = h.ownedCount := by
  cases x with
  | object id =>
    simp only [dropOne, dropObject]
    split
    · simp
    · rename_i o ho
      split
      · simp
      · split
        · have := ownedCount_setObject o.destroyed ho
          simp only [Object.destroyed, Payload.owned_emptied, List.length_nil, Nat.add_zero] at this
          simp only [Object.destroyed]
          omega
        · have := ownedCount_setObject { o with refs := o.refs - 1 } ho
          dsimp only at this
          simp only [List.length_nil, Nat.zero_add]
          omega
  | scope id =>
    simp only [dropOne, dropScope]
    split
    · simp
    · rename_i s hs
      have key := ownedCount_setScope { s with refs := s.refs - 1 } hs
      have same : ({ s with refs := s.refs - 1 } : Scope).owned = s.owned := rfl
      rw [same] at key
      split
      · simp
      · split
        · have := freed_destroyScope (scope?_setScope_self { s with refs := s.refs - 1 } hs)
          omega
        · simp only [List.length_nil, Nat.zero_add]
          omega

/-! ### All of them -/

/-- Gives up references in order, together with all that thereby comes to be given up. `died`
holds what was destroyed before. -/
def drop (h : Heap) (died : Array Demise) : List Handle → Heap × Array Demise
  | [] => (h, died)
  | x :: rest =>
    let step := h.dropOne x
    step.heap.drop (died ++ step.demise.toArray) (step.freed ++ rest)
termination_by work => work.length + h.ownedCount
decreasing_by
  have := freed_dropOne h x
  simp only [List.length_append, List.length_cons]
  omega

/-- Destroys a scope, whatever its count is, together with all that thereby comes to be given
up. -/
def destroy (h : Heap) (id : ScopeId) : Heap × Array Demise :=
  match h.scope? id with
  | none => (h, #[])
  | some s =>
    let step := h.destroyScope id s
    step.heap.drop step.demise.toArray step.freed

end Heap

end CountedLisp
