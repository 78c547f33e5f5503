import CountedLisp.Heap.Drop
import Mathlib.Algebra.Order.Group.Multiset

/-!
# Owners and counts

`Heap.owners h x` is the number of references to `x` that living objects and scopes own: sides of
pairs, slots of vectors, values of thunks and of bindings, scopes of pending thunks, of functions
and of their calls, and scopes around scopes.

`Heap.Accounts h C` says that the books are right if `C` is what is owned from outside the heap:
every count is the number of occurrences in `C` plus the number of owners, and what is dead has no
count. What has an occurrence in `C` or an owner is therefore alive (`Accounts.lives`).

Every change to a heap replaces one object or one scope, or adds one, and is the same everywhere
else (`Heap.SameAt`). `Accounts.of_change` says what is to be known about that place;
`Accounts.setObject`, `Accounts.setScope`, `Accounts.addObject` and `Accounts.addScope` say for
which outside owners the books are right after each of them.
-/

namespace CountedLisp

/-! ### Shares -/

/-- References that someone owns, each as often as it is owned. -/
abbrev Share := Multiset Handle

namespace Share

/-- One reference to an object. -/
def ref (r : Ref) : Share :=
  (Handle.objects [r] : Multiset Handle)

/-- References to objects. -/
def refs (rs : List Ref) : Share :=
  (Handle.objects rs : Multiset Handle)

/-- One reference to a scope. -/
def scope (s : ScopeRef) : Share :=
  (Handle.ofScope s : Multiset Handle)

@[simp] theorem ref_none : ref none = 0 := rfl

theorem ref_some (id : ObjectId) : ref (some id) = {Handle.object id} := rfl

@[simp] theorem refs_nil : refs [] = 0 := rfl

@[simp] theorem refs_cons (r : Ref) (rs : List Ref) : refs (r :: rs) = ref r + refs rs := by
  cases r with
  | none => simp [refs, ref, Handle.objects]
  | some id =>
    simp only [refs, ref, Handle.objects, List.filterMap_cons, Option.map_some,
      List.filterMap_nil, Multiset.coe_add]
    rfl

theorem refs_pair (r s : Ref) : refs [r, s] = ref r + ref s := by
  simp

@[simp] theorem refs_append (rs ss : List Ref) : refs (rs ++ ss) = refs rs + refs ss := by
  simp [refs, Handle.objects]

theorem refs_concat (rs : List Ref) (r : Ref) : refs (rs ++ [r]) = ref r + refs rs := by
  rw [refs_append, refs_cons, refs_nil, add_zero, add_comm]

@[simp] theorem scope_none : scope none = 0 := rfl

theorem scope_some (id : ScopeId) : scope (some id) = {Handle.scope id} := rfl

theorem mem_ref {r : Ref} {x : Handle} : x ∈ ref r ↔ ∃ id, r = some id ∧ x = .object id := by
  cases r <;> simp [ref, Handle.objects]

theorem mem_refs {rs : List Ref} {x : Handle} : x ∈ refs rs ↔ ∃ r ∈ rs, x ∈ ref r := by
  induction rs with
  | nil => simp
  | cons r rs ih => simp [ih]

theorem add_subset {D E F : Share} : D + E ⊆ F ↔ D ⊆ F ∧ E ⊆ F := by
  simp only [Multiset.subset_iff, Multiset.mem_add, or_imp, forall_and]

/-- Objects are no scopes. -/
theorem scope_subset_refs {s : ScopeRef} {rs : List Ref} (h : scope s ⊆ refs rs) : s = none := by
  cases s with
  | none => rfl
  | some id =>
    have hmem : Handle.scope id ∈ refs rs := h (by simp [scope_some])
    obtain ⟨r, -, hr⟩ := mem_refs.mp hmem
    obtain ⟨o, -, ho⟩ := mem_ref.mp hr
    cases ho

@[simp] theorem owned_pair (left right : Ref) :
    ((Payload.pair left right).owned : Share) = ref left + ref right := by
  change refs [left, right] = _
  simp

@[simp] theorem owned_vector (items : List Ref) :
    ((Payload.vector items).owned : Share) = refs items := rfl

@[simp] theorem owned_pending (code : Code) (s : ScopeRef) :
    ((Payload.thunk ⟨code, .pending s⟩).owned : Share) = scope s := rfl

@[simp] theorem owned_done (code : Code) (v : Ref) :
    ((Payload.thunk ⟨code, .done v⟩).owned : Share) = ref v := rfl

@[simp] theorem owned_user (c : Closure) : ((Payload.lambda (.user c)).owned : Share) =
    (c.calls.map Handle.scope : Multiset Handle) + scope c.scope := by
  change ((c.calls.reverse.map Handle.scope ++ Handle.ofScope c.scope : List Handle) :
    Multiset Handle) = _
  rw [← Multiset.coe_add, List.map_reverse, Multiset.coe_reverse]
  rfl

end Share

/-! ### What is in the heap, and what is alive -/

/-- The references that an object owns as long as it lives. -/
def Object.held (o : Object) : List Handle :=
  if o.dead then [] else o.payload.owned

/-- The references that a scope owns as long as it lives. -/
def Scope.held (s : Scope) : List Handle :=
  if s.dead then [] else s.owned

namespace Heap

/-- Whether a reference points to something in the heap. -/
def Knows (h : Heap) : Handle → Prop
  | .object id => id.index < h.objects.size
  | .scope id => id.index < h.scopes.size

/-- Whether a reference points to something living. -/
def Lives (h : Heap) : Handle → Prop
  | .object id => ∃ o, h.object? id = some o ∧ o.dead = false
  | .scope id => ∃ s, h.scope? id = some s ∧ s.dead = false

/-- Whether a reference points to something destroyed. -/
def Dead (h : Heap) : Handle → Prop
  | .object id => ∃ o, h.object? id = some o ∧ o.dead = true
  | .scope id => ∃ s, h.scope? id = some s ∧ s.dead = true

instance (h : Heap) : DecidablePred h.Lives
  | .object id => decidable_of_iff ((h.object? id).any (!·.dead) = true)
    (by simp [Lives, Option.any_eq_true])
  | .scope id => decidable_of_iff ((h.scope? id).any (!·.dead) = true)
    (by simp [Lives, Option.any_eq_true])

instance (h : Heap) : DecidablePred h.Dead
  | .object id => decidable_of_iff ((h.object? id).any (·.dead) = true)
    (by simp [Dead, Option.any_eq_true])
  | .scope id => decidable_of_iff ((h.scope? id).any (·.dead) = true)
    (by simp [Dead, Option.any_eq_true])

theorem Lives.knows {h : Heap} {x : Handle} (hx : h.Lives x) : h.Knows x := by
  cases x with
  | object id =>
    obtain ⟨o, ho, -⟩ := hx
    exact lt_size_of_object? ho
  | scope id =>
    obtain ⟨s, hs, -⟩ := hx
    exact lt_size_of_scope? hs

theorem Lives.not_dead {h : Heap} {x : Handle} (hx : h.Lives x) : ¬h.Dead x := by
  cases x with
  | object id =>
    obtain ⟨o, ho, hl⟩ := hx
    rintro ⟨o', ho', hd⟩
    rw [ho, Option.some.injEq] at ho'
    rw [ho', hd] at hl
    cases hl
  | scope id =>
    obtain ⟨s, hs, hl⟩ := hx
    rintro ⟨s', hs', hd⟩
    rw [hs, Option.some.injEq] at hs'
    rw [hs', hd] at hl
    cases hl

theorem lives_of_knows {h : Heap} {x : Handle} (hk : h.Knows x) (hd : ¬h.Dead x) : h.Lives x := by
  cases x with
  | object id =>
    cases ho : h.object? id with
    | none => exact absurd hk (Nat.not_lt.mpr (object?_eq_none_iff.mp ho))
    | some o =>
      refine ⟨o, ho, ?_⟩
      cases hdead : o.dead
      · rfl
      · exact absurd ⟨o, ho, hdead⟩ hd
  | scope id =>
    cases hs : h.scope? id with
    | none => exact absurd hk (Nat.not_lt.mpr (scope?_eq_none_iff.mp hs))
    | some s =>
      refine ⟨s, hs, ?_⟩
      cases hdead : s.dead
      · rfl
      · exact absurd ⟨s, hs, hdead⟩ hd

/-! ### Counting owners -/

/-- The number of references to `x` that are owned within the heap. -/
def owners (h : Heap) (x : Handle) : Nat :=
  (h.objects.toList.flatMap (·.held)).count x + (h.scopes.toList.flatMap (·.held)).count x

/-- The count of what is counted: of every scope, and of every object except for the empty list. -/
def count? (h : Heap) : Handle → Option Nat
  | .object id => (h.object? id).bind fun o =>
    if o.payload.isImmortal then none else some o.refs.toNat
  | .scope id => (h.scope? id).map (·.refs.toNat)

/-! ### What a change leaves alone -/

theorem object?_setObject_cases {h : Heap} {id id' : ObjectId} {o o' x : Object}
    (ho : h.object? id = some o) (hx : (h.setObject id o').object? id' = some x) :
    id' = id ∧ x = o' ∨ id' ≠ id ∧ h.object? id' = some x := by
  by_cases hid : id' = id
  · subst hid
    rw [object?_setObject_self o' ho] at hx
    cases hx
    exact .inl ⟨rfl, rfl⟩
  · rw [object?_setObject_ne o' hid] at hx
    exact .inr ⟨hid, hx⟩

theorem object?_setObject_of {h : Heap} {id id' : ObjectId} {o x : Object} (o' : Object)
    (ho : h.object? id = some o) (hx : h.object? id' = some x) :
    id' = id ∧ x = o ∧ (h.setObject id o').object? id' = some o' ∨
      id' ≠ id ∧ (h.setObject id o').object? id' = some x := by
  by_cases hid : id' = id
  · subst hid
    rw [ho, Option.some.injEq] at hx
    exact .inl ⟨rfl, hx.symm, object?_setObject_self o' ho⟩
  · exact .inr ⟨hid, by rw [object?_setObject_ne o' hid, hx]⟩

theorem scope?_setScope_cases {h : Heap} {id id' : ScopeId} {s s' x : Scope}
    (hs : h.scope? id = some s) (hx : (h.setScope id s').scope? id' = some x) :
    id' = id ∧ x = s' ∨ id' ≠ id ∧ h.scope? id' = some x := by
  by_cases hid : id' = id
  · subst hid
    rw [scope?_setScope_self s' hs] at hx
    cases hx
    exact .inl ⟨rfl, rfl⟩
  · rw [scope?_setScope_ne s' hid] at hx
    exact .inr ⟨hid, hx⟩

theorem scope?_setScope_of {h : Heap} {id id' : ScopeId} {s x : Scope} (s' : Scope)
    (hs : h.scope? id = some s) (hx : h.scope? id' = some x) :
    id' = id ∧ x = s ∧ (h.setScope id s').scope? id' = some s' ∨
      id' ≠ id ∧ (h.setScope id s').scope? id' = some x := by
  by_cases hid : id' = id
  · subst hid
    rw [hs, Option.some.injEq] at hx
    exact .inl ⟨rfl, hx.symm, scope?_setScope_self s' hs⟩
  · exact .inr ⟨hid, by rw [scope?_setScope_ne s' hid, hx]⟩

theorem object?_addObject_ne {h : Heap} {p : Payload} {id : ObjectId}
    (hne : id ≠ (h.addObject p).1) : (h.addObject p).2.object? id = h.object? id := by
  by_cases hlt : id.index < h.objects.size
  · exact object?_addObject_old p hlt
  · -- beyond the new object there is nothing, before and after
    have hgt : h.objects.size < id.index := by
      refine Nat.lt_of_le_of_ne (Nat.le_of_not_lt hlt) fun he => hne ?_
      cases id
      simp_all [Heap.addObject]
    rw [object?_eq_none_iff.mpr (Nat.le_of_not_lt hlt), object?_eq_none_iff]
    simp only [Heap.addObject, Array.size_push]
    omega

theorem scope?_addScope_ne {h : Heap} {s : Scope} {id : ScopeId} (hne : id ≠ (h.addScope s).1) :
    (h.addScope s).2.scope? id = h.scope? id := by
  by_cases hlt : id.index < h.scopes.size
  · exact scope?_addScope_old s hlt
  · have hgt : h.scopes.size < id.index := by
      refine Nat.lt_of_le_of_ne (Nat.le_of_not_lt hlt) fun he => hne ?_
      cases id
      simp_all [Heap.addScope]
    rw [scope?_eq_none_iff.mpr (Nat.le_of_not_lt hlt), scope?_eq_none_iff]
    simp only [Heap.addScope, Array.size_push]
    omega

theorem object?_addObject_cases {h : Heap} {p : Payload} {id : ObjectId} {x : Object}
    (hx : (h.addObject p).2.object? id = some x) :
    id = (h.addObject p).1 ∧ x = .new p ∨ id ≠ (h.addObject p).1 ∧ h.object? id = some x := by
  by_cases hid : id = (h.addObject p).1
  · subst hid
    rw [object?_addObject_new] at hx
    cases hx
    exact .inl ⟨rfl, rfl⟩
  · rw [object?_addObject_ne hid] at hx
    exact .inr ⟨hid, hx⟩

theorem scope?_addScope_cases {h : Heap} {id : ScopeId} {s x : Scope}
    (hx : (h.addScope s).2.scope? id = some x) :
    id = (h.addScope s).1 ∧ x = s ∨ id ≠ (h.addScope s).1 ∧ h.scope? id = some x := by
  by_cases hid : id = (h.addScope s).1
  · subst hid
    rw [scope?_addScope_new] at hx
    cases hx
    exact .inl ⟨rfl, rfl⟩
  · rw [scope?_addScope_ne hid] at hx
    exact .inr ⟨hid, hx⟩

/-- What a reference points to is the same in both heaps. -/
def SameAt (h h' : Heap) : Handle → Prop
  | .object id => h'.object? id = h.object? id
  | .scope id => h'.scope? id = h.scope? id

namespace SameAt

variable {h h' h'' : Heap} {y : Handle}

protected theorem refl (h : Heap) (y : Handle) : h.SameAt h y := by
  cases y <;> rfl

protected theorem trans (h1 : h.SameAt h' y) (h2 : h'.SameAt h'' y) : h.SameAt h'' y := by
  cases y <;> exact Eq.trans h2 h1

theorem object?_eq {id : ObjectId} (hs : h.SameAt h' (.object id)) : h'.object? id = h.object? id :=
  hs

theorem scope?_eq {id : ScopeId} (hs : h.SameAt h' (.scope id)) : h'.scope? id = h.scope? id :=
  hs

theorem count?_eq (hs : h.SameAt h' y) : h'.count? y = h.count? y := by
  cases y with
  | object id => rw [count?, hs.object?_eq, count?]
  | scope id => rw [count?, hs.scope?_eq, count?]

theorem dead_iff (hs : h.SameAt h' y) : h'.Dead y ↔ h.Dead y := by
  cases y with
  | object id => rw [Dead, hs.object?_eq, Dead]
  | scope id => rw [Dead, hs.scope?_eq, Dead]

theorem knows_iff (hs : h.SameAt h' y) : h'.Knows y ↔ h.Knows y := by
  cases y with
  | object id => simp only [Knows, ← Nat.not_le, ← object?_eq_none_iff, hs.object?_eq]
  | scope id => simp only [Knows, ← Nat.not_le, ← scope?_eq_none_iff, hs.scope?_eq]

end SameAt

theorem sameAt_setObject {h : Heap} {id : ObjectId} {y : Handle} (o : Object)
    (hy : y ≠ .object id) : h.SameAt (h.setObject id o) y := by
  cases y with
  | object id' => exact object?_setObject_ne o fun he => hy (congrArg _ he)
  | scope s => rfl

theorem sameAt_setScope {h : Heap} {id : ScopeId} {y : Handle} (s : Scope)
    (hy : y ≠ .scope id) : h.SameAt (h.setScope id s) y := by
  cases y with
  | object o => rfl
  | scope id' => exact scope?_setScope_ne s fun he => hy (congrArg _ he)

theorem sameAt_addObject {h : Heap} {p : Payload} {y : Handle}
    (hy : y ≠ .object (h.addObject p).1) : h.SameAt (h.addObject p).2 y := by
  cases y with
  | object id => exact object?_addObject_ne fun he => hy (congrArg _ he)
  | scope s => rfl

theorem sameAt_addScope {h : Heap} {s : Scope} {y : Handle}
    (hy : y ≠ .scope (h.addScope s).1) : h.SameAt (h.addScope s).2 y := by
  cases y with
  | object o => rfl
  | scope id => exact scope?_addScope_ne fun he => hy (congrArg _ he)

theorem sameAt_updateRegistry (h : Heap) (id : Option RegistryId) (f : Registry → Registry)
    (y : Handle) : h.SameAt (h.updateRegistry id f) y := by
  cases y with
  | object _ => exact object?_updateRegistry _ _ _ _
  | scope _ => exact scope?_updateRegistry _ _ _ _

/-! ### Owners after a change -/

theorem owners_setObject {h : Heap} {id : ObjectId} {o : Object} (o' : Object)
    (ho : h.object? id = some o) (x : Handle) :
    (h.setObject id o').owners x + o.held.count x = h.owners x + o'.held.count x := by
  have ho' : h.objects.toList[id.index]? = some o := by simpa [object?] using ho
  have hcount := (perm_flatMap_set (fun y : Object => y.held) _ _ _ o' ho').count_eq x
  simp only [owners, setObject, Array.toList_setIfInBounds, List.count_append] at hcount ⊢
  omega

theorem owners_setScope {h : Heap} {id : ScopeId} {s : Scope} (s' : Scope)
    (hs : h.scope? id = some s) (x : Handle) :
    (h.setScope id s').owners x + s.held.count x = h.owners x + s'.held.count x := by
  have hs' : h.scopes.toList[id.index]? = some s := by simpa [scope?] using hs
  have hcount := (perm_flatMap_set (fun y : Scope => y.held) _ _ _ s' hs').count_eq x
  simp only [owners, setScope, Array.toList_setIfInBounds, List.count_append] at hcount ⊢
  omega

theorem owners_addObject (h : Heap) (p : Payload) (x : Handle) :
    (h.addObject p).2.owners x = h.owners x + p.owned.count x := by
  simp only [owners, addObject, Array.toList_push, List.flatMap_append, List.count_append,
    List.flatMap_singleton, Object.held, Object.new, Bool.false_eq_true, if_false]
  omega

theorem owners_addScope (h : Heap) (s : Scope) (x : Handle) :
    (h.addScope s).2.owners x = h.owners x + s.held.count x := by
  simp only [owners, addScope, Array.toList_push, List.flatMap_append, List.count_append,
    List.flatMap_singleton]
  omega

@[simp] theorem owners_updateRegistry (h : Heap) (id : Option RegistryId)
    (f : Registry → Registry) (x : Handle) : (h.updateRegistry id f).owners x = h.owners x := by
  simp [owners]

theorem owners_pos_of_object {h : Heap} {id : ObjectId} {o : Object} {x : Handle}
    (ho : h.object? id = some o) (hx : x ∈ o.held) : 0 < h.owners x := by
  have hmem : o ∈ h.objects.toList := Array.mem_toList_iff.mpr (Array.mem_of_getElem? ho)
  have hpos : 0 < (h.objects.toList.flatMap (·.held)).count x :=
    List.count_pos_iff.mpr (List.mem_flatMap.mpr ⟨o, hmem, hx⟩)
  exact Nat.add_pos_left hpos _

theorem owners_pos_of_scope {h : Heap} {id : ScopeId} {s : Scope} {x : Handle}
    (hs : h.scope? id = some s) (hx : x ∈ s.held) : 0 < h.owners x := by
  have hmem : s ∈ h.scopes.toList := Array.mem_toList_iff.mpr (Array.mem_of_getElem? hs)
  have hpos : 0 < (h.scopes.toList.flatMap (·.held)).count x :=
    List.count_pos_iff.mpr (List.mem_flatMap.mpr ⟨s, hmem, hx⟩)
  exact Nat.add_pos_right _ hpos

/-! ### The books -/

/-- Counting up from below the maximum does not start again from zero. -/
theorem toNat_add_one {n : UInt32} (hn : n ≠ 0xFFFFFFFF) : (n + 1).toNat = n.toNat + 1 := by
  have hlt := n.toNat_lt
  have hne : n.toNat ≠ 4294967295 := fun he => hn (UInt32.toNat_inj.mp he)
  rw [UInt32.toNat_add]
  change (n.toNat + 1) % 4294967296 = n.toNat + 1
  omega

theorem toNat_add_ofNat {k : UInt32} {n : Nat} (hn : k.toNat + n < 2 ^ 32) :
    (k + UInt32.ofNat n).toNat = k.toNat + n := by
  rw [UInt32.toNat_add, UInt32.toNat_ofNat', Nat.add_mod_mod, Nat.mod_eq_of_lt hn]

/-- Counting down stops at zero. -/
theorem toNat_sub_one {n : UInt32} (hn : n ≠ 0) : (n - 1).toNat + 1 = n.toNat := by
  have hpos : 1 ≤ n.toNat := Nat.one_le_iff_ne_zero.mpr fun he => hn (UInt32.toNat_inj.mp he)
  rw [UInt32.toNat_sub_of_le n 1 hpos]
  exact Nat.sub_add_cancel hpos

/-- The books are right for outside owners `C`. -/
structure Accounts (h : Heap) (C : Share) : Prop where
  /-- A count is the number of owners, outside and inside. -/
  count : ∀ x n, h.count? x = some n → n = C.count x + h.owners x
  /-- What is owned is in the heap. -/
  known : ∀ x, ¬h.Knows x → C.count x + h.owners x = 0
  /-- What is dead is counted, and its count is zero. -/
  dead : ∀ x, h.Dead x → h.count? x = some 0
  /-- A dead object holds no scope. -/
  spent : ∀ id o, h.object? id = some o → o.dead = true → ∀ s, Handle.scope s ∉ o.payload.owned

namespace Accounts

variable {h : Heap} {C D : Share}

/-- **What has an owner is alive.** -/
theorem lives (ha : h.Accounts C) {x : Handle} (hx : 0 < C.count x + h.owners x) : h.Lives x := by
  -- what is not in the heap has no owners, and what is dead has a count of zero
  refine lives_of_knows (Classical.byContradiction fun hk => ?_) fun hd => ?_
  · rw [ha.known x hk] at hx
    exact absurd hx (Nat.lt_irrefl 0)
  · rw [← ha.count x 0 (ha.dead x hd)] at hx
    exact absurd hx (Nat.lt_irrefl 0)

theorem lives_of_mem (ha : h.Accounts C) {x : Handle} (hx : x ∈ C) : h.Lives x :=
  ha.lives (Nat.add_pos_left (Multiset.count_pos.mpr hx) _)

theorem lives_of_object (ha : h.Accounts C) {id : ObjectId} {o : Object} {x : Handle}
    (ho : h.object? id = some o) (hd : o.dead = false) (hx : x ∈ o.payload.owned) : h.Lives x := by
  refine ha.lives (Nat.add_pos_right _ (owners_pos_of_object ho ?_))
  rw [Object.held, hd]
  exact hx

theorem lives_of_scope (ha : h.Accounts C) {id : ScopeId} {s : Scope} {x : Handle}
    (hs : h.scope? id = some s) (hd : s.dead = false) (hx : x ∈ s.owned) : h.Lives x := by
  refine ha.lives (Nat.add_pos_right _ (owners_pos_of_scope hs ?_))
  rw [Scope.held, hd]
  exact hx

theorem object_count (ha : h.Accounts C) {id : ObjectId} {o : Object}
    (ho : h.object? id = some o) (hi : o.payload.isImmortal = false) :
    o.refs.toNat = C.count (.object id) + h.owners (.object id) :=
  ha.count _ _ (by simp [count?, ho, hi])

theorem scope_count (ha : h.Accounts C) {id : ScopeId} {s : Scope} (hs : h.scope? id = some s) :
    s.refs.toNat = C.count (.scope id) + h.owners (.scope id) :=
  ha.count _ _ (by simp [count?, hs])

theorem object_refs_of_dead (ha : h.Accounts C) {id : ObjectId} {o : Object}
    (ho : h.object? id = some o) (hd : o.dead = true) :
    o.refs = 0 ∧ o.payload.isImmortal = false := by
  have hc := ha.dead (.object id) ⟨o, ho, hd⟩
  cases hi : o.payload.isImmortal with
  | true => simp [count?, ho, hi] at hc
  | false =>
    simp only [count?, ho, Option.bind_some, hi, Bool.false_eq_true, if_false,
      Option.some.injEq] at hc
    exact ⟨UInt32.toNat_inj.mp hc, rfl⟩

theorem scope_refs_of_dead (ha : h.Accounts C) {id : ScopeId} {s : Scope}
    (hs : h.scope? id = some s) (hd : s.dead = true) : s.refs = 0 := by
  have hc := ha.dead (.scope id) ⟨s, hs, hd⟩
  simp only [count?, hs, Option.map_some, Option.some.injEq] at hc
  exact UInt32.toNat_inj.mp hc

/-- Whether the empty list is among the outside owners makes no difference. -/
theorem of_count_eq (ha : h.Accounts C) (hle : ∀ x, D.count x ≤ C.count x)
    (heq : ∀ x, h.count? x ≠ none → D.count x = C.count x) : h.Accounts D where
  count x n hn := by
    rw [heq x (by simp [hn])]
    exact ha.count x n hn
  known x hk := by
    have := ha.known x hk
    have := hle x
    omega
  dead := ha.dead
  spent := ha.spent

/-- What is not counted may have any number of outside owners. -/
theorem addImmortal (ha : h.Accounts C) {id : ObjectId} {o : Object} (ho : h.object? id = some o)
    (hi : o.payload.isImmortal = true) : h.Accounts (.object id ::ₘ C) where
  count x n hn := by
    have hx : x ≠ .object id := by
      rintro rfl
      simp [count?, ho, hi] at hn
    rw [Multiset.count_cons_of_ne hx]
    exact ha.count x n hn
  known x hk := by
    have hx : x ≠ .object id := by
      rintro rfl
      exact hk (lt_size_of_object? ho)
    rw [Multiset.count_cons_of_ne hx]
    exact ha.known x hk
  dead := ha.dead
  spent := ha.spent

/-- **A change at one place** leaves the books right if they are right there, and if outside owners
make up for what the others gain and lose. -/
theorem of_change (ha : h.Accounts C) {h' : Heap} {x : Handle} (hsame : ∀ y ≠ x, h.SameAt h' y)
    (hx : h'.Knows x) (hothers : ∀ y ≠ x, D.count y + h'.owners y = C.count y + h.owners y)
    (hcount : ∀ n, h'.count? x = some n → n = D.count x + h'.owners x)
    (hdead : h'.Dead x → h'.count? x = some 0)
    (hspent : ∀ id o, x = .object id → h'.object? id = some o → o.dead = true →
      ∀ s, Handle.scope s ∉ o.payload.owned) : h'.Accounts D where
  count y n hn := by
    by_cases hy : y = x
    · exact hy ▸ hcount n (hy ▸ hn)
    · rw [hothers y hy]
      exact ha.count y n ((hsame y hy).count?_eq ▸ hn)
  known y hk := by
    have hy : y ≠ x := fun hy => hk (hy ▸ hx)
    rw [hothers y hy]
    exact ha.known y (mt (hsame y hy).knows_iff.mpr hk)
  dead y hd := by
    by_cases hy : y = x
    · exact hy ▸ hdead (hy ▸ hd)
    · rw [(hsame y hy).count?_eq]
      exact ha.dead y ((hsame y hy).dead_iff.mp hd)
  spent id o ho := by
    by_cases hy : .object id = x
    · exact hspent id o hy.symm ho
    · exact ha.spent id o ((hsame _ hy).object?_eq ▸ ho)

/-! ### One object replaced -/

/-- **Replacing an object** leaves the books right if what changes in its count and in what it holds
is made up for outside. -/
theorem setObject (ha : h.Accounts C) {id : ObjectId} {o o' : Object} (ho : h.object? id = some o)
    (himm : o'.payload.isImmortal = o.payload.isImmortal)
    (hdead : o'.dead = true → o'.refs = 0 ∧ o'.payload.isImmortal = false ∧
      ∀ s, Handle.scope s ∉ o'.payload.owned)
    (hbal : ∀ x, D.count x + o'.held.count x + (if x = .object id then o.refs.toNat else 0) =
      C.count x + o.held.count x + if x = .object id then o'.refs.toNat else 0) :
    (h.setObject id o').Accounts D := by
  have hself := object?_setObject_self o' ho
  refine ha.of_change (x := .object id) (fun y hy => sameAt_setObject o' hy)
    (lt_size_of_object? hself) (fun y hy => ?_) (fun n hn => ?_) (fun hd => ?_) ?_
  · have hown := owners_setObject o' ho y
    have hy' := hbal y
    simp only [hy, if_false] at hy'
    omega
  · -- the count of the object itself changes, by as much as its owners do
    simp only [count?, hself, Option.bind_some, himm] at hn
    cases hi : o.payload.isImmortal with
    | true => simp [hi] at hn
    | false =>
      simp only [hi, Bool.false_eq_true, if_false, Option.some.injEq] at hn
      have hc := ha.object_count ho hi
      have hown := owners_setObject o' ho (.object id)
      have hx := hbal (.object id)
      simp only [if_true] at hx
      omega
  · obtain ⟨y, hy, hyd⟩ := hd
    rw [hself, Option.some.injEq] at hy
    obtain ⟨hr, hi, -⟩ := hdead (hy ▸ hyd)
    simp [count?, hself, hr, hi]
  · rintro _ y ⟨⟩ hy hyd
    rw [hself, Option.some.injEq] at hy
    subst hy
    exact (hdead hyd).2.2

/-- The count of a living object goes up with a new outside owner. -/
theorem retainObject (ha : h.Accounts C) {id : ObjectId} {o : Object} (ho : h.object? id = some o)
    (hd : o.dead = false) (hmax : o.refs ≠ 0xFFFFFFFF) :
    (h.setObject id { o with refs := o.refs + 1 }).Accounts (.object id ::ₘ C) := by
  refine ha.setObject ho rfl (fun hd' => ?_) fun x => ?_
  · rw [hd] at hd'
    cases hd'
  · have hrefs := toNat_add_one hmax
    simp only [Object.held, Multiset.count_cons, hrefs]
    split_ifs <;> omega

/-- A living object exchanges what it holds with an outside owner. -/
theorem setPayload (ha : h.Accounts C) {id : ObjectId} {o : Object} {p : Payload}
    (ho : h.object? id = some o) (hd : o.dead = false)
    (himm : p.isImmortal = o.payload.isImmortal)
    (hbal : D + (p.owned : Share) = C + (o.payload.owned : Share)) :
    (h.setObject id { o with payload := p }).Accounts D := by
  refine ha.setObject ho himm (fun hd' => ?_) fun x => ?_
  · rw [hd] at hd'
    cases hd'
  · have hx := congrArg (Multiset.count x) hbal
    simp only [Multiset.count_add, Multiset.coe_count] at hx
    simp only [Object.held, hd, Bool.false_eq_true, if_false]
    omega

/-- A dead object holds nothing, whatever its payload says. -/
theorem setDeadPayload (ha : h.Accounts C) {id : ObjectId} {o : Object} {p : Payload}
    (ho : h.object? id = some o) (hd : o.dead = true) (hp : p.isImmortal = false)
    (hs : ∀ s, Handle.scope s ∉ p.owned) :
    (h.setObject id { o with payload := p }).Accounts C := by
  obtain ⟨hr, hi⟩ := ha.object_refs_of_dead ho hd
  refine ha.setObject ho (hp.trans hi.symm) (fun _ => ⟨hr, hp, hs⟩) fun x => ?_
  simp only [Object.held, hd, if_true]

/-! ### One scope replaced -/

/-- **Replacing a scope** leaves the books right if what changes in its count and in what it holds
is made up for outside. -/
theorem setScope (ha : h.Accounts C) {id : ScopeId} {s s' : Scope} (hs : h.scope? id = some s)
    (hdead : s'.dead = true → s'.refs = 0)
    (hbal : ∀ x, D.count x + s'.held.count x + (if x = .scope id then s.refs.toNat else 0) =
      C.count x + s.held.count x + if x = .scope id then s'.refs.toNat else 0) :
    (h.setScope id s').Accounts D := by
  have hself := scope?_setScope_self s' hs
  refine ha.of_change (x := .scope id) (fun y hy => sameAt_setScope s' hy)
    (lt_size_of_scope? hself) (fun y hy => ?_) (fun n hn => ?_) (fun hd => ?_) ?_
  · have hown := owners_setScope s' hs y
    have hy' := hbal y
    simp only [hy, if_false] at hy'
    omega
  · simp only [count?, hself, Option.map_some, Option.some.injEq] at hn
    have hc := ha.scope_count hs
    have hown := owners_setScope s' hs (.scope id)
    have hx := hbal (.scope id)
    simp only [if_true] at hx
    omega
  · obtain ⟨y, hy, hyd⟩ := hd
    rw [hself, Option.some.injEq] at hy
    simp [count?, hself, hdead (hy ▸ hyd)]
  · rintro _ _ ⟨⟩

/-- The count of a scope goes up with a new outside owner, unless it is at its maximum. -/
theorem retainScope (ha : h.Accounts C) {id : ScopeId} {s : Scope} (hs : h.scope? id = some s)
    (hd : s.dead = false) (hmax : s.refs ≠ 0xFFFFFFFF) :
    (h.setScope id { s with refs := s.refs + 1 }).Accounts (.scope id ::ₘ C) := by
  refine ha.setScope hs (fun hd' => ?_) fun x => ?_
  · rw [hd] at hd'
    cases hd'
  · have hrefs := toNat_add_one hmax
    have hown : ({ s with refs := s.refs + 1 } : Scope).held = s.held := rfl
    simp only [hown, Multiset.count_cons, hrefs]
    split_ifs <;> omega

/-- A living scope exchanges what it holds with an outside owner. -/
theorem setBindings (ha : h.Accounts C) {id : ScopeId} {s : Scope} {b : List (Text × Ref)}
    (hs : h.scope? id = some s) (hd : s.dead = false)
    (hbal : D + Share.refs (b.map fun e => e.2) = C + Share.refs (s.bindings.map fun e => e.2)) :
    (h.setScope id { s with bindings := b }).Accounts D := by
  refine ha.setScope hs (fun hd' => ?_) fun x => ?_
  · rw [hd] at hd'
    cases hd'
  · have hx := congrArg (Multiset.count x) hbal
    simp only [Share.refs, Multiset.count_add, Multiset.coe_count] at hx
    simp only [Scope.held, hd, Bool.false_eq_true, if_false, Scope.owned, List.count_append]
    omega

/-! ### Something new -/

/-- A new object takes over from outside what it holds, and is owned from outside. -/
theorem addObject (ha : h.Accounts C) {p : Payload} (hp : p.isImmortal = false)
    (hC : C = (p.owned : Share) + D) :
    (h.addObject p).2.Accounts (.object (h.addObject p).1 ::ₘ D) := by
  subst hC
  have hself := object?_addObject_new h p
  refine ha.of_change (fun y hy => sameAt_addObject hy) (lt_size_of_object? hself)
    (fun y hy => ?_) (fun n hn => ?_) (fun hd => ?_) ?_
  · rw [owners_addObject, Multiset.count_cons_of_ne hy, Multiset.count_add, Multiset.coe_count]
    omega
  · -- nobody can have owned the new object before, so its count of one is the outside owner
    have hz := ha.known (.object (h.addObject p).1) (Nat.lt_irrefl _)
    simp only [count?, hself, Option.bind_some, Object.new, hp, Bool.false_eq_true, if_false,
      Option.some.injEq] at hn
    simp only [Multiset.count_add, Multiset.coe_count] at hz
    rw [owners_addObject, Multiset.count_cons_self]
    have h1 : (1 : UInt32).toNat = 1 := rfl
    omega
  · obtain ⟨o, ho, hdead⟩ := hd
    rw [hself, Option.some.injEq] at ho
    subst ho
    cases hdead
  · rintro _ o ⟨⟩ ho hdead
    rw [hself, Option.some.injEq] at ho
    subst ho
    cases hdead

/-- A new scope takes over from outside what it holds, and is owned from outside. -/
theorem addScope (ha : h.Accounts C) {s : Scope} (hr : s.refs = 1) (hd : s.dead = false)
    (hC : C = (s.owned : Share) + D) :
    (h.addScope s).2.Accounts (.scope (h.addScope s).1 ::ₘ D) := by
  subst hC
  have hself := scope?_addScope_new h s
  have hheld : s.held = s.owned := by rw [Scope.held, hd]; rfl
  refine ha.of_change (fun y hy => sameAt_addScope hy) (lt_size_of_scope? hself)
    (fun y hy => ?_) (fun n hn => ?_) (fun hdead => ?_) ?_
  · rw [owners_addScope, hheld, Multiset.count_cons_of_ne hy, Multiset.count_add,
      Multiset.coe_count]
    omega
  · have hz := ha.known (.scope (h.addScope s).1) (Nat.lt_irrefl _)
    simp only [count?, hself, Option.map_some, hr, Option.some.injEq] at hn
    simp only [Multiset.count_add, Multiset.coe_count] at hz
    rw [owners_addScope, hheld, Multiset.count_cons_self]
    have h1 : (1 : UInt32).toNat = 1 := rfl
    omega
  · obtain ⟨y, hy, hyd⟩ := hdead
    rw [hself, Option.some.injEq] at hy
    rw [← hy, hd] at hyd
    cases hyd
  · rintro _ _ ⟨⟩

theorem updateRegistry (ha : h.Accounts C) (id : Option RegistryId) (f : Registry → Registry) :
    (h.updateRegistry id f).Accounts C where
  count x n hn := by
    rw [(sameAt_updateRegistry h id f x).count?_eq] at hn
    rw [owners_updateRegistry]
    exact ha.count x n hn
  known x hk := by
    rw [owners_updateRegistry]
    exact ha.known x (mt (sameAt_updateRegistry h id f x).knows_iff.mpr hk)
  dead x hd := by
    rw [(sameAt_updateRegistry h id f x).count?_eq]
    exact ha.dead x ((sameAt_updateRegistry h id f x).dead_iff.mp hd)
  spent id' o ho := ha.spent id' o (by simpa using ho)

end Accounts

end Heap

end CountedLisp
