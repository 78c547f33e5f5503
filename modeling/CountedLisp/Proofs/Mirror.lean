import CountedLisp.Heap.Printer
import CountedLisp.Proofs.Spines
import CountedLisp.Proofs.Release
import CountedLisp.Store.Scope

/-!
# Reading in a world without destruction

The measure for whether counting can be noticed is a world that does not reclaim. `Heap.Mirrors h k`
says that the heap `k` holds everything that lives in `h`, unchanged except for counts; what is dead
in `h` may still live in `k`.

What a run reads starts from something living and goes on to what that owns. If whatever is owned
lives (`Heap.Closed`), which the books guarantee, then every way of reading gives the same in both
heaps: the items of a list (`Mirrors.spine`), written forms (`Mirrors.print?`), and the values of
names (`Mirrors.search`).
-/

namespace CountedLisp

theorem mapM_congr {α β : Type} {f g : α → Option β} {l : List α} (hl : ∀ a ∈ l, f a = g a) :
    l.mapM f = l.mapM g := by
  induction l with
  | nil => rfl
  | cons a l ih =>
    rw [List.mapM_cons, List.mapM_cons, hl a List.mem_cons_self,
      ih fun b hb => hl b (List.mem_cons_of_mem a hb)]

namespace Heap

/-! ### Living references -/

/-- Whether all references of a share point to something living. -/
def Keeps (h : Heap) (D : Share) : Prop :=
  ∀ x ∈ D, h.Lives x

@[simp] theorem keeps_zero (h : Heap) : h.Keeps 0 := by
  simp [Keeps]

@[simp] theorem keeps_add {h : Heap} {D E : Share} : h.Keeps (D + E) ↔ h.Keeps D ∧ h.Keeps E := by
  simp only [Keeps, Multiset.mem_add, or_imp, forall_and]

theorem Keeps.mono {h : Heap} {D E : Share} (hD : h.Keeps D) (hE : E ⊆ D) : h.Keeps E :=
  fun x hx => hD x (hE hx)

theorem keeps_ref_some {h : Heap} {id : ObjectId} :
    h.Keeps (Share.ref (some id)) ↔ h.Lives (.object id) := by
  simp [Keeps, Share.ref_some]

theorem keeps_scope_some {h : Heap} {id : ScopeId} :
    h.Keeps (Share.scope (some id)) ↔ h.Lives (.scope id) := by
  simp [Keeps, Share.scope_some]

theorem keeps_refs {h : Heap} {rs : List Ref} :
    h.Keeps (Share.refs rs) ↔ ∀ r ∈ rs, h.Keeps (Share.ref r) := by
  induction rs with
  | nil => simp
  | cons r rs ih => simp [ih]

/-- Whether none of the objects that a share refers to is destroyed. -/
def Spares (h : Heap) (D : Share) : Prop :=
  ∀ id, .object id ∈ D → ¬h.Dead (.object id)

theorem Keeps.spares {h : Heap} {D : Share} (hD : h.Keeps D) : h.Spares D :=
  fun id hid => (hD (.object id) hid).not_dead

theorem Spares.of_leads {h h' : Heap} {D : Share} (hD : h'.Spares D) (hl : h.Leads h') :
    h.Spares D :=
  fun id hid hdead => hD id hid (hl.dead hdead)

theorem Spares.add {h : Heap} {D E : Share} (hD : h.Spares D) (hE : h.Spares E) :
    h.Spares (D + E) :=
  fun id hid => (Multiset.mem_add.mp hid).elim (hD id) (hE id)

theorem Spares.mono {h : Heap} {D E : Share} (hD : h.Spares D) (hE : E ⊆ D) : h.Spares E :=
  fun id hid => hD id (hE hid)

/-- Scopes are no objects. -/
theorem spares_scope (h : Heap) (s : ScopeRef) : h.Spares (Share.scope s) := by
  intro id hid
  cases s with
  | none => simp [Share.scope, Handle.ofScope] at hid
  | some s => simp [Share.scope_some] at hid

/-- What a living object or scope owns lives. -/
structure Closed (h : Heap) : Prop where
  object : ∀ {id o}, h.object? id = some o → o.dead = false → h.Keeps (o.payload.owned : Share)
  scope : ∀ {id s}, h.scope? id = some s → s.dead = false → h.Keeps (s.owned : Share)

theorem get?_eq_some {h : Heap} {r : Ref} {o : Object} (ho : h.get? r = some o) :
    ∃ id, r = some id ∧ h.object? id = some o := by
  cases r with
  | none => cases ho
  | some id => exact ⟨id, rfl, ho⟩

theorem Closed.get? {h : Heap} (hc : h.Closed) {r : Ref} {o : Object} (ho : h.get? r = some o)
    (hd : o.dead = false) : h.Keeps (o.payload.owned : Share) := by
  obtain ⟨id, rfl, ho⟩ := get?_eq_some ho
  exact hc.object ho hd

theorem Closed.parent {h : Heap} (hc : h.Closed) {id p : ScopeId} {s : Scope}
    (hs : h.scope? id = some s) (hid : h.Lives (.scope id)) (hp : s.parent = some p) :
    h.Lives (.scope p) := by
  obtain ⟨s', hs', hd⟩ := hid
  rw [hs, Option.some.injEq] at hs'
  subst hs'
  exact hc.scope hs hd _ (by simp [Scope.owned, Handle.ofScope, hp])

/-- The scopes around a living scope live. -/
theorem Closed.chain {h : Heap} (hc : h.Closed) {id : ScopeId} (hid : h.Lives (.scope id)) :
    ∀ x ∈ h.chain id, h.Lives (.scope x) := by
  fun_induction Heap.chain h id with
  | case1 => simp
  | case2 id => simpa using hid
  | case3 id s hs p hp hlt ih =>
    intro x hx
    rcases List.mem_cons.mp hx with rfl | hx
    · exact hid
    · exact ih (hc.parent hs hid hp) x hx
  | case4 id => simpa using hid

/-- The same if there may be no scope at all. -/
theorem Closed.chainFrom {h : Heap} (hc : h.Closed) {s : ScopeRef}
    (hs : h.Keeps (Share.scope s)) : ∀ x ∈ h.chainFrom s, h.Lives (.scope x) := by
  cases s with
  | none => simp [Heap.chainFrom]
  | some id => exact hc.chain (keeps_scope_some.mp hs)

/-- The items of a list live. -/
theorem Closed.follow {h : Heap} (hc : h.Closed) (depth : Nat) {r : Ref} {items : List Ref}
    (hf : h.follow depth r = .proper items) : h.Keeps (Share.refs items) := by
  induction depth generalizing r items with
  | zero => cases hf
  | succ depth ih =>
    rw [Heap.follow] at hf
    split at hf
    · cases hf
      simp
    · next refs left right ho =>
      split at hf
      · next items' hrest =>
        cases hf
        have hsides := hc.get? ho rfl
        simp only [Share.owned_pair, keeps_add] at hsides
        simp only [Share.refs_cons, keeps_add]
        exact ⟨hsides.1, ih hrest⟩
      · next hrest => exact absurd hf (hrest items)
    · cases hf

theorem Accounts.keeps {h : Heap} {C : Share} (ha : h.Accounts C) : h.Keeps C :=
  fun _ hx => ha.lives_of_mem hx

theorem Accounts.closed {h : Heap} {C : Share} (ha : h.Accounts C) : h.Closed where
  object ho hd _ hx := ha.lives_of_object ho hd (Multiset.mem_coe.mp hx)
  scope hs hd _ hx := ha.lives_of_scope hs hd (Multiset.mem_coe.mp hx)

/-! ### Mirrors -/

/-- The second heap holds what lives in the first one, up to counts. -/
structure Mirrors (h k : Heap) : Prop where
  objects_size : k.objects.size = h.objects.size
  scopes_size : k.scopes.size = h.scopes.size
  serial : k.serial = h.serial
  registries_size : k.registries.size = h.registries.size
  object : ∀ {id o}, h.object? id = some o → o.dead = false →
    ∃ n, k.object? id = some { o with refs := n }
  scope : ∀ {id s}, h.scope? id = some s → s.dead = false →
    ∃ n, k.scope? id = some { s with refs := n }

namespace Mirrors

variable {h k : Heap}

protected theorem refl (h : Heap) : h.Mirrors h where
  objects_size := rfl
  scopes_size := rfl
  serial := rfl
  registries_size := rfl
  object {_ o} ho _ := ⟨o.refs, ho⟩
  scope {_ s} hs _ := ⟨s.refs, hs⟩

/-- What is left after giving up references has the same mirrors. -/
theorem fades {h' : Heap} (hm : h.Mirrors k) (hf : h.Fades h') : h'.Mirrors k where
  objects_size := hm.objects_size.trans hf.objects_size.symm
  scopes_size := hm.scopes_size.trans hf.scopes_size.symm
  serial := hm.serial.trans hf.serial.symm
  registries_size := hm.registries_size.trans hf.registries_size.symm
  object {id o'} ho' hd' := by
    obtain ⟨o, ho, hd, hp⟩ := hf.living ho' hd'
    obtain ⟨n, hn⟩ := hm.object ho hd
    refine ⟨n, ?_⟩
    rw [hn, hp, hd, hd']
  scope {id s'} hs' hd' := by
    obtain ⟨s, hs, he⟩ := hf.livingScope hs' hd'
    have hd : s.dead = false := by rw [he]; exact hd'
    obtain ⟨n, hn⟩ := hm.scope hs hd
    refine ⟨n, ?_⟩
    rw [hn, he]

/-! ### Changes in both heaps -/

/-- The count of an object makes no difference. -/
theorem setRefs (hm : h.Mirrors k) {id : ObjectId} {o : Object} (ho : h.object? id = some o)
    (n : UInt32) : (h.setObject id { o with refs := n }).Mirrors k where
  objects_size := by rw [size_objects_setObject, hm.objects_size]
  scopes_size := hm.scopes_size
  serial := hm.serial
  registries_size := hm.registries_size
  object {id' y} hy hd := by
    rcases object?_setObject_cases ho hy with ⟨rfl, rfl⟩ | ⟨-, hy⟩
    · obtain ⟨m, hk⟩ := hm.object ho hd
      exact ⟨m, hk⟩
    · exact hm.object hy hd
  scope := hm.scope

/-- The object may change in any way, as long as it does so in both heaps. -/
theorem setObject (hm : h.Mirrors k) {id : ObjectId} {o : Object} (ho : h.object? id = some o)
    (o' : Object) {y' : Object} {n : UInt32} (hy : y' = { o' with refs := n }) :
    (h.setObject id o').Mirrors (k.setObject id y') where
  objects_size := by rw [size_objects_setObject, size_objects_setObject, hm.objects_size]
  scopes_size := hm.scopes_size
  serial := hm.serial
  registries_size := hm.registries_size
  object {id' y} hy' hd := by
    rcases object?_setObject_cases ho hy' with ⟨rfl, rfl⟩ | ⟨hid, hy'⟩
    · -- the other heap has an object there, be it what it may: it is replaced, too
      have hlt : id'.index < k.objects.size := hm.objects_size ▸ lt_size_of_object? ho
      refine ⟨n, ?_⟩
      rw [object?_setObject_self _ (Array.getElem?_eq_getElem hlt), hy]
    · rw [object?_setObject_ne _ hid]
      exact hm.object hy' hd
  scope := hm.scope

theorem setScope (hm : h.Mirrors k) {id : ScopeId} {s : Scope} (hs : h.scope? id = some s)
    (s' : Scope) {y' : Scope} {n : UInt32} (hy : y' = { s' with refs := n }) :
    (h.setScope id s').Mirrors (k.setScope id y') where
  objects_size := hm.objects_size
  scopes_size := by rw [size_scopes_setScope, size_scopes_setScope, hm.scopes_size]
  serial := hm.serial
  registries_size := hm.registries_size
  object := hm.object
  scope {id' y} hy' hd := by
    rcases scope?_setScope_cases hs hy' with ⟨rfl, rfl⟩ | ⟨hid, hy'⟩
    · have hlt : id'.index < k.scopes.size := hm.scopes_size ▸ lt_size_of_scope? hs
      refine ⟨n, ?_⟩
      rw [scope?_setScope_self _ (Array.getElem?_eq_getElem hlt), hy]
    · rw [scope?_setScope_ne _ hid]
      exact hm.scope hy' hd

/-- New objects get the same place in both heaps, since these have the same size. -/
theorem addObject (hm : h.Mirrors k) (p : Payload) :
    (k.addObject p).1 = (h.addObject p).1 ∧ (h.addObject p).2.Mirrors (k.addObject p).2 := by
  have hid : (k.addObject p).1 = (h.addObject p).1 := by
    simp only [Heap.addObject, hm.objects_size]
  refine ⟨hid, ⟨?_, hm.scopes_size, hm.serial, hm.registries_size, fun {id o} ho hd => ?_,
    hm.scope⟩⟩
  · simp only [Heap.addObject, Array.size_push, hm.objects_size]
  · rcases object?_addObject_cases ho with ⟨rfl, rfl⟩ | ⟨hne, ho⟩
    · -- the new object has the same place in both heaps, which are of one size
      refine ⟨1, ?_⟩
      rw [← hid, object?_addObject_new]
      rfl
    · rw [object?_addObject_ne (hid ▸ hne)]
      exact hm.object ho hd

theorem addScope (hm : h.Mirrors k) (s : Scope) :
    (k.addScope s).1 = (h.addScope s).1 ∧ (h.addScope s).2.Mirrors (k.addScope s).2 := by
  have hid : (k.addScope s).1 = (h.addScope s).1 := by
    simp only [Heap.addScope, hm.scopes_size]
  refine ⟨hid, ⟨hm.objects_size, ?_, hm.serial, hm.registries_size, hm.object,
    fun {id y} hy hd => ?_⟩⟩
  · simp only [Heap.addScope, Array.size_push, hm.scopes_size]
  · rcases scope?_addScope_cases hy with ⟨rfl, rfl⟩ | ⟨hne, hy⟩
    · refine ⟨y.refs, ?_⟩
      rw [← hid, scope?_addScope_new]
    · rw [scope?_addScope_ne (hid ▸ hne)]
      exact hm.scope hy hd

/-- Registries make no difference. -/
theorem updateRegistry (hm : h.Mirrors k) (id : Option RegistryId) (f : Registry → Registry) :
    (h.updateRegistry id f).Mirrors (k.updateRegistry id f) where
  objects_size := by simp [hm.objects_size]
  scopes_size := by simp [hm.scopes_size]
  serial := by cases id <;> exact hm.serial
  registries_size := by cases id <;> simp [Heap.updateRegistry, hm.registries_size]
  object ho hd := by
    rw [object?_updateRegistry] at ho ⊢
    exact hm.object ho hd
  scope hs hd := by
    rw [scope?_updateRegistry] at hs ⊢
    exact hm.scope hs hd

/-! ### One object or scope -/

/-- A living object is the same in the mirror, up to its count. -/
theorem get? (hm : h.Mirrors k) {r : Ref} (hr : h.Keeps (Share.ref r)) :
    h.get? r = none ∧ k.get? r = none ∨
      ∃ o n, h.get? r = some o ∧ o.dead = false ∧ k.get? r = some { o with refs := n } := by
  cases r with
  | none => exact .inl ⟨rfl, rfl⟩
  | some id =>
    obtain ⟨o, ho, hd⟩ := keeps_ref_some.mp hr
    obtain ⟨n, hn⟩ := hm.object ho hd
    exact .inr ⟨o, n, ho, hd, hn⟩

theorem getScope? (hm : h.Mirrors k) {s : ScopeRef} (hs : h.Keeps (Share.scope s)) :
    h.getScope? s = none ∧ k.getScope? s = none ∨
      ∃ x n, h.getScope? s = some x ∧ x.dead = false ∧
        k.getScope? s = some { x with refs := n } := by
  cases s with
  | none => exact .inl ⟨rfl, rfl⟩
  | some id =>
    obtain ⟨x, hx, hd⟩ := keeps_scope_some.mp hs
    obtain ⟨n, hn⟩ := hm.scope hx hd
    exact .inr ⟨x, n, hx, hd, hn⟩

theorem scope_of_lives (hm : h.Mirrors k) {id : ScopeId} {s : Scope} (hs : h.scope? id = some s)
    (hid : h.Lives (.scope id)) : ∃ n, k.scope? id = some { s with refs := n } := by
  obtain ⟨s', hs', hd⟩ := hid
  rw [hs, Option.some.injEq] at hs'
  subst hs'
  exact hm.scope hs hd

/-- Whether something is a thunk does not depend on its count. -/
theorem isThunk (hm : h.Mirrors k) {r : Ref} (hr : h.Keeps (Share.ref r)) :
    k.isThunk r = h.isThunk r := by
  obtain ⟨h1, h2⟩ | ⟨o, n, h1, -, h2⟩ := hm.get? hr
  · simp only [Heap.isThunk, h1, h2]
  · obtain ⟨refs, dead, payload⟩ := o
    simp only [Heap.isThunk, h1, h2]
    cases payload <;> rfl

theorem isAlive (hm : h.Mirrors k) {r : Ref} (hr : h.Keeps (Share.ref r)) :
    k.isAlive r = h.isAlive r := by
  obtain ⟨h1, h2⟩ | ⟨o, n, h1, -, h2⟩ := hm.get? hr <;> simp [Heap.isAlive, h1, h2]

theorem hasTag (hm : h.Mirrors k) {r : Ref} (hr : h.Keeps (Share.ref r)) (tag : Tag) :
    Object.hasTag k tag r = Object.hasTag h tag r := by
  obtain ⟨h1, h2⟩ | ⟨o, n, h1, -, h2⟩ := hm.get? hr
  · simp only [Object.hasTag, h1, h2]
  · simp only [Object.hasTag, h1, h2]
    rfl

theorem number? (hm : h.Mirrors k) {r : Ref} (hr : h.Keeps (Share.ref r)) :
    Object.number? k r = Object.number? h r := by
  obtain ⟨h1, h2⟩ | ⟨o, n, h1, hd, h2⟩ := hm.get? hr
  · simp only [Object.number?, h1, h2]
  · obtain ⟨refs, dead, payload⟩ := o
    simp only at hd
    subst hd
    simp only [Object.number?, h1, h2]
    cases payload with
    | constant c => cases c <;> rfl
    | _ => rfl

/-! ### Lists -/

/-- A walk along a list meets living pairs only, since each is owned by the one before it. -/
theorem follow (hm : h.Mirrors k) (hc : h.Closed) (depth : Nat) {r : Ref}
    (hr : h.Keeps (Share.ref r)) : k.follow depth r = h.follow depth r := by
  induction depth generalizing r with
  | zero => rfl
  | succ depth ih =>
    obtain ⟨h1, h2⟩ | ⟨o, n, h1, hd, h2⟩ := hm.get? hr
    · simp only [Heap.follow, h1, h2]
    · obtain ⟨refs, dead, payload⟩ := o
      subst hd
      simp only [Heap.follow, h1, h2]
      cases payload with
      | pair left right =>
        -- a living pair owns its sides, so the induction goes on to something living
        have hsides := hc.get? h1 rfl
        simp only [Share.owned_pair, keeps_add] at hsides
        simp only [ih hsides.2]
      | _ => rfl

theorem spine (hm : h.Mirrors k) (hc : h.Closed) {r : Ref} (hr : h.Keeps (Share.ref r)) :
    k.spine r = h.spine r := by
  -- the depth to which a list is followed depends on the size of the heap only
  rw [Heap.spine, Heap.spine, hm.objects_size, hm.follow hc _ hr]

/-! ### Written forms -/

/-- The written form shows no counts. By induction on the depth, for objects and rests of lists at
once. -/
theorem print_printRest (hm : h.Mirrors k) (hc : h.Closed) (depth : Nat) {r : Ref}
    (hr : h.Keeps (Share.ref r)) :
    k.print depth r = h.print depth r ∧ k.printRest depth r = h.printRest depth r := by
  induction depth generalizing r with
  | zero => exact ⟨rfl, rfl⟩
  | succ depth ih =>
    obtain ⟨h1, h2⟩ | ⟨o, n, h1, hd, h2⟩ := hm.get? hr
    · simp only [Heap.print, Heap.printRest, h1, h2, (ih hr).1, and_self]
    · obtain ⟨refs, dead, payload⟩ := o
      simp only at hd
      subst hd
      have howned := hc.get? h1 rfl
      simp only [Heap.print, Heap.printRest, h1, h2]
      cases payload with
      | pair left right =>
        simp only [Share.owned_pair, keeps_add] at howned
        simp only [(ih howned.1).1, (ih howned.2).2, and_self]
      | vector items =>
        simp only [Share.owned_vector, keeps_refs] at howned
        -- each item of a vector is printed by itself, at the smaller depth
        have hitems : items.mapM (k.print depth) = items.mapM (h.print depth) :=
          mapM_congr fun r hr => (ih (howned r hr)).1
        simp only [hitems, (ih hr).1, and_self]
      | _ => simp only [(ih hr).1, and_self]

theorem print? (hm : h.Mirrors k) (hc : h.Closed) {r : Ref} (hr : h.Keeps (Share.ref r)) :
    k.print? r = h.print? r := by
  rw [Heap.print?, Heap.print?, hm.objects_size, (hm.print_printRest hc _ hr).1]

theorem describe? (hm : h.Mirrors k) (hc : h.Closed) {r : Ref} (hr : h.Keeps (Share.ref r)) :
    k.describe? r = h.describe? r := by
  rw [Heap.describe?, Heap.describe?, hm.print? hc hr]
  obtain ⟨h1, h2⟩ | ⟨o, n, h1, -, h2⟩ := hm.get? hr
  · rw [h1, h2]
  · rw [h1, h2]
    rfl

/-! ### Names -/

/-- The scopes around a living scope live, so that the mirror has the same ones. -/
theorem chain (hm : h.Mirrors k) (hc : h.Closed) (id : ScopeId) (hid : h.Lives (.scope id)) :
    k.chain id = h.chain id := by
  fun_induction Heap.chain h id with
  | case1 id hs =>
    -- what lives is there
    obtain ⟨s, hs', -⟩ := hid
    rw [hs] at hs'
    cases hs'
  | case2 id s hs hp =>
    obtain ⟨n, hn⟩ := hm.scope_of_lives hs hid
    rw [Heap.chain, hn]
    simp only [hp]
  | case3 id s hs p hp hlt ih =>
    obtain ⟨n, hn⟩ := hm.scope_of_lives hs hid
    rw [Heap.chain, hn]
    simp only [hp, hlt, if_true, ih (hc.parent hs hid hp)]
  | case4 id s hs p hp hlt =>
    obtain ⟨n, hn⟩ := hm.scope_of_lives hs hid
    rw [Heap.chain, hn]
    simp only [hp, hlt, if_false]

theorem chainFrom (hm : h.Mirrors k) (hc : h.Closed) {s : ScopeRef}
    (hs : h.Keeps (Share.scope s)) : k.chainFrom s = h.chainFrom s := by
  cases s with
  | none => rfl
  | some id => exact hm.chain hc id (keeps_scope_some.mp hs)

/-- The search for a name reads the bindings of living scopes. -/
theorem search (hm : h.Mirrors k) (name : Text) {ids : List ScopeId}
    (hids : ∀ id ∈ ids, h.Lives (.scope id)) :
    Scope.search k name ids = Scope.search h name ids := by
  induction ids with
  | nil => rfl
  | cons id ids ih =>
    obtain ⟨s, hs, hd⟩ := hids id List.mem_cons_self
    obtain ⟨n, hn⟩ := hm.scope hs hd
    have hrest := ih fun x hx => hids x (List.mem_cons_of_mem id hx)
    simp only [Scope.search] at hrest
    simp only [Scope.search, List.findSome?_cons, hs, hn, hrest]
    rfl

end Mirrors

end Heap

end CountedLisp
