import CountedLisp.Proofs.Ownership

/-!
# Giving up references

What giving up one reference can do is said once, by `Heap.Drops`: nothing, a count that goes down,
or the destruction of an object or a scope, whose references are to be given up next. Giving up a
list of references takes such steps until the list is empty.

* `Accounts.drop`: if the books are right for outside owners that include the references given up,
  they are right afterwards for the others, whatever was destroyed on the way.
* `fades_drop`: what is alive afterwards was so before and differs at most in its count, and what
  was dead stays so.

`Heap.Leads` is what every change to a heap has in common, this one and all others.
-/

namespace CountedLisp

theorem Payload.tag_emptied (p : Payload) : p.emptied.tag = p.tag := by
  cases p with
  | constant c => cases c <;> rfl
  | _ => rfl

namespace Heap

/-! ### One step -/

/-- What giving up a reference can do: the heap after it, and the references to be given up next. -/
inductive Drops (h : Heap) : Handle → Heap → List Handle → Prop where
  /-- What is not counted, or has no count left, does not change. -/
  | idle {x : Handle} (hx : h.count? x = none ∨ h.count? x = some 0) : Drops h x h []
  /-- An object with further owners. -/
  | lessObject {id : ObjectId} {o : Object} (ho : h.object? id = some o)
      (hi : o.payload.isImmortal = false) (h0 : o.refs ≠ 0) (h1 : o.refs ≠ 1) :
      Drops h (.object id) (h.setObject id { o with refs := o.refs - 1 }) []
  /-- An object that has lost its last owner. -/
  | lastObject {id : ObjectId} {o : Object} (ho : h.object? id = some o)
      (hi : o.payload.isImmortal = false) (h1 : o.refs = 1) :
      Drops h (.object id) (h.setObject id o.destroyed) o.payload.owned
  /-- A scope with further owners. -/
  | lessScope {id : ScopeId} {s : Scope} (hs : h.scope? id = some s) (h0 : s.refs ≠ 0)
      (h1 : s.refs ≠ 1 ∨ s.dead = true) :
      Drops h (.scope id) (h.setScope id { s with refs := s.refs - 1 }) []
  /-- A scope that has lost its last owner. -/
  | lastScope {id : ScopeId} {s : Scope} (hs : h.scope? id = some s) (h1 : s.refs = 1)
      (hd : s.dead = false) :
      Drops h (.scope id)
        ((h.setScope id s.destroyed).updateRegistry s.registry (Registry.erase s.serial)) s.owned

theorem setScope_setScope (h : Heap) (id : ScopeId) (s s' : Scope) :
    (h.setScope id s).setScope id s' = h.setScope id s' := by
  simp [setScope]

theorem drops_dropObject (h : Heap) (id : ObjectId) :
    Drops h (.object id) (h.dropObject id).heap (h.dropObject id).freed := by
  unfold dropObject
  split
  · next ho => exact .idle (.inl (by simp [count?, ho]))
  · next o ho =>
    split
    · next hstop =>
      -- the empty list is not counted, and what has no count left is dead
      refine .idle ?_
      cases hi : o.payload.isImmortal with
      | true => exact .inl (by simp [count?, ho, hi])
      | false => exact .inr (by simp_all [count?])
    · next hgo =>
      simp only [Bool.or_eq_true, decide_eq_true_eq, not_or, Bool.not_eq_true] at hgo
      split
      · next h1 => exact .lastObject ho hgo.1 h1
      · next h1 => exact .lessObject ho hgo.1 hgo.2 h1

theorem drops_dropScope (h : Heap) (id : ScopeId) :
    Drops h (.scope id) (h.dropScope id).heap (h.dropScope id).freed := by
  unfold dropScope
  split
  · next hs => exact .idle (.inl (by simp [count?, hs]))
  · next s hs =>
    split
    · next h0 => exact .idle (.inr (by simp [count?, hs, h0]))
    · next h0 =>
      by_cases h1 : s.refs = 1
      · rw [if_pos h1]
        unfold destroyScope
        -- a scope that a cycle has kept until the end is destroyed already
        split
        · next hd => exact .lessScope hs h0 (.inr hd)
        · next hd =>
          simp only [setScope_setScope]
          exact .lastScope (s := s) hs h1 (Bool.eq_false_iff.mpr hd)
      · rw [if_neg h1]
        exact .lessScope hs h0 (.inl h1)

theorem drops_dropOne (h : Heap) (x : Handle) :
    Drops h x (h.dropOne x).heap (h.dropOne x).freed := by
  cases x with
  | object id => exact drops_dropObject h id
  | scope id => exact drops_dropScope h id

/-! ### Later heaps -/

/-- The second heap comes after the first one: everything is still there, objects have kept their
types, and what was dead is so still. -/
structure Leads (h h' : Heap) : Prop where
  object : ∀ {id o}, h.object? id = some o →
    ∃ o', h'.object? id = some o' ∧ o'.tag = o.tag ∧ (o.dead = true → o'.dead = true)
  scope : ∀ {id s}, h.scope? id = some s →
    ∃ s', h'.scope? id = some s' ∧ (s.dead = true → s'.dead = true)

namespace Leads

variable {h h' h'' : Heap}

protected theorem refl (h : Heap) : h.Leads h where
  object {_ o} ho := ⟨o, ho, rfl, id⟩
  scope {_ s} hs := ⟨s, hs, id⟩

protected theorem trans (h1 : h.Leads h') (h2 : h'.Leads h'') : h.Leads h'' where
  object ho := by
    obtain ⟨o', ho', ht', hd'⟩ := h1.object ho
    obtain ⟨o'', ho'', ht'', hd''⟩ := h2.object ho'
    exact ⟨o'', ho'', ht''.trans ht', fun hd => hd'' (hd' hd)⟩
  scope hs := by
    obtain ⟨s', hs', hd'⟩ := h1.scope hs
    obtain ⟨s'', hs'', hd''⟩ := h2.scope hs'
    exact ⟨s'', hs'', fun hd => hd'' (hd' hd)⟩

theorem setObject {id : ObjectId} {o o' : Object} (ho : h.object? id = some o)
    (ht : o'.tag = o.tag) (hd : o.dead = true → o'.dead = true) :
    h.Leads (h.setObject id o') where
  object {id' y} hy := by
    rcases object?_setObject_of o' ho hy with ⟨-, rfl, ho'⟩ | ⟨-, hy'⟩
    · exact ⟨o', ho', ht, hd⟩
    · exact ⟨y, hy', rfl, fun hyd => hyd⟩
  scope {_ s} hs := ⟨s, hs, fun hd => hd⟩

theorem setScope {id : ScopeId} {s s' : Scope} (hs : h.scope? id = some s)
    (hd : s.dead = true → s'.dead = true) : h.Leads (h.setScope id s') where
  object {_ o} ho := ⟨o, ho, rfl, fun hd => hd⟩
  scope {id' y} hy := by
    rcases scope?_setScope_of s' hs hy with ⟨-, rfl, hs'⟩ | ⟨-, hy'⟩
    · exact ⟨s', hs', hd⟩
    · exact ⟨y, hy', fun hyd => hyd⟩

theorem addObject (h : Heap) (p : Payload) : h.Leads (h.addObject p).2 where
  object {_ o} ho :=
    ⟨o, by rw [object?_addObject_old p (lt_size_of_object? ho), ho], rfl, id⟩
  scope {_ s} hs := ⟨s, hs, id⟩

theorem addScope (h : Heap) (s : Scope) : h.Leads (h.addScope s).2 where
  object {_ o} ho := ⟨o, ho, rfl, id⟩
  scope {_ y} hy := ⟨y, by rw [scope?_addScope_old s (lt_size_of_scope? hy), hy], id⟩

theorem updateRegistry (h : Heap) (id : Option RegistryId) (f : Registry → Registry) :
    h.Leads (h.updateRegistry id f) where
  object {_ o} ho := ⟨o, by simpa using ho, rfl, fun hd => hd⟩
  scope {_ s} hs := ⟨s, by simpa using hs, fun hd => hd⟩

theorem knows (hl : h.Leads h') {x : Handle} (hx : h.Knows x) : h'.Knows x := by
  cases x with
  | object id =>
    obtain ⟨o', ho', -⟩ := hl.object (Array.getElem?_eq_getElem hx)
    exact lt_size_of_object? ho'
  | scope id =>
    obtain ⟨s', hs', -⟩ := hl.scope (Array.getElem?_eq_getElem hx)
    exact lt_size_of_scope? hs'

theorem dead (hl : h.Leads h') {x : Handle} (hx : h.Dead x) : h'.Dead x := by
  cases x with
  | object id =>
    obtain ⟨o, ho, hd⟩ := hx
    obtain ⟨o', ho', -, hd'⟩ := hl.object ho
    exact ⟨o', ho', hd' hd⟩
  | scope id =>
    obtain ⟨s, hs, hd⟩ := hx
    obtain ⟨s', hs', hd'⟩ := hl.scope hs
    exact ⟨s', hs', hd' hd⟩

/-- What lives later and was there before lived then. -/
theorem lives (hl : h.Leads h') {x : Handle} (hk : h.Knows x) (hx : h'.Lives x) : h.Lives x :=
  lives_of_knows hk fun hd => hx.not_dead (hl.dead hd)

end Leads

/-! ### What is left -/

/-- The second heap is what is left of the first one after some references have been given up. -/
structure Fades (h h' : Heap) : Prop extends h.Leads h' where
  objects_size : h'.objects.size = h.objects.size
  scopes_size : h'.scopes.size = h.scopes.size
  serial : h'.serial = h.serial
  registries_size : h'.registries.size = h.registries.size
  /-- A living object was so before and differs at most in its count. -/
  living : ∀ {id o'}, h'.object? id = some o' → o'.dead = false →
    ∃ o, h.object? id = some o ∧ o.dead = false ∧ o.payload = o'.payload
  /-- A living scope was so before and differs at most in its count. -/
  livingScope : ∀ {id s'}, h'.scope? id = some s' → s'.dead = false →
    ∃ s, h.scope? id = some s ∧ s = { s' with refs := s.refs }

namespace Fades

variable {h h' h'' : Heap}

protected theorem refl (h : Heap) : h.Fades h where
  toLeads := .refl h
  objects_size := rfl
  scopes_size := rfl
  serial := rfl
  registries_size := rfl
  living {_ o'} ho hd := ⟨o', ho, hd, rfl⟩
  livingScope {_ s'} hs _ := ⟨s', hs, rfl⟩

protected theorem trans (h1 : h.Fades h') (h2 : h'.Fades h'') : h.Fades h'' where
  toLeads := h1.toLeads.trans h2.toLeads
  objects_size := h2.objects_size.trans h1.objects_size
  scopes_size := h2.scopes_size.trans h1.scopes_size
  serial := h2.serial.trans h1.serial
  registries_size := h2.registries_size.trans h1.registries_size
  living ho'' hd := by
    obtain ⟨o', ho', hd', hp'⟩ := h2.living ho'' hd
    obtain ⟨o, ho, hd0, hp⟩ := h1.living ho' hd'
    exact ⟨o, ho, hd0, hp.trans hp'⟩
  livingScope hs'' hd := by
    obtain ⟨s', hs', he'⟩ := h2.livingScope hs'' hd
    have hd' : s'.dead = false := by rw [he']; exact hd
    obtain ⟨s, hs, he⟩ := h1.livingScope hs' hd'
    exact ⟨s, hs, by rw [he, he']⟩

/-- Replacing an object by one with the same payload, or by a dead one, only takes away. -/
theorem setObject {id : ObjectId} {o o' : Object} (ho : h.object? id = some o)
    (ht : o'.tag = o.tag) (hd : o.dead = true → o'.dead = true)
    (hl : o'.dead = false → o.dead = false ∧ o.payload = o'.payload) :
    h.Fades (h.setObject id o') where
  toLeads := .setObject ho ht hd
  objects_size := size_objects_setObject h id o'
  scopes_size := rfl
  serial := rfl
  registries_size := rfl
  living {id' y} hy hyd := by
    rcases object?_setObject_cases ho hy with ⟨rfl, rfl⟩ | ⟨-, hy⟩
    · exact ⟨o, ho, hl hyd⟩
    · exact ⟨y, hy, hyd, rfl⟩
  livingScope {_ s'} hs _ := ⟨s', hs, rfl⟩

/-- Replacing a scope by one with another count, or by a dead one, only takes away. -/
theorem setScope {id : ScopeId} {s s' : Scope} (hs : h.scope? id = some s)
    (hd : s.dead = true → s'.dead = true) (hl : s'.dead = false → s = { s' with refs := s.refs }) :
    h.Fades (h.setScope id s') where
  toLeads := .setScope hs hd
  objects_size := rfl
  scopes_size := size_scopes_setScope h id s'
  serial := rfl
  registries_size := rfl
  living {_ o'} ho hd := ⟨o', ho, hd, rfl⟩
  livingScope {id' y} hy hyd := by
    rcases scope?_setScope_cases hs hy with ⟨rfl, rfl⟩ | ⟨-, hy⟩
    · exact ⟨s, hs, hl hyd⟩
    · exact ⟨y, hy, rfl⟩

theorem updateRegistry (h : Heap) (id : Option RegistryId) (f : Registry → Registry) :
    h.Fades (h.updateRegistry id f) where
  toLeads := .updateRegistry h id f
  objects_size := by simp
  scopes_size := by simp
  serial := by cases id <;> rfl
  registries_size := by cases id <;> simp [Heap.updateRegistry]
  living {_ o'} ho hd := ⟨o', by simpa using ho, hd, rfl⟩
  livingScope {_ s'} hs _ := ⟨s', by simpa using hs, rfl⟩

/-- What is left alive was so before. -/
theorem lives_of_lives (hf : h.Fades h') {x : Handle} (hx : h'.Lives x) : h.Lives x := by
  cases x with
  | object id =>
    obtain ⟨o', ho', hd'⟩ := hx
    obtain ⟨o, ho, hd, -⟩ := hf.living ho' hd'
    exact ⟨o, ho, hd⟩
  | scope id =>
    obtain ⟨s', hs', hd'⟩ := hx
    obtain ⟨s, hs, he⟩ := hf.livingScope hs' hd'
    exact ⟨s, hs, by rw [he]; exact hd'⟩

end Fades

theorem Drops.fades {h h' : Heap} {x : Handle} {freed : List Handle} (hx : Drops h x h' freed) :
    h.Fades h' := by
  cases hx with
  | idle => exact .refl h
  | lessObject ho => exact .setObject ho rfl id fun hd => ⟨hd, rfl⟩
  | @lastObject _ o ho =>
    exact .setObject ho (Payload.tag_emptied o.payload) (fun _ => rfl) fun hd => by cases hd
  | lessScope hs => exact .setScope hs id fun _ => rfl
  | lastScope hs =>
    exact (Fades.setScope hs (fun _ => rfl) fun hd => by cases hd).trans (.updateRegistry _ _ _)

theorem fades_drop (h : Heap) (died : Array Demise) (work : List Handle) :
    h.Fades (h.drop died work).1 := by
  fun_induction Heap.drop with
  | case1 => exact .refl _
  | case2 h died x rest step ih => exact (drops_dropOne h x).fades.trans ih

/-! ### The books -/

namespace Accounts

variable {h h' : Heap} {C : Share}

/-- Giving up one reference hands the references of what is destroyed over to the outside. -/
theorem step {x : Handle} {freed : List Handle} (ha : h.Accounts (x ::ₘ C))
    (hx : Drops h x h' freed) : h'.Accounts ((freed : Share) + C) := by
  cases hx with
  | idle hx =>
    -- nothing changes: `x` is not counted, since a count of zero would leave out its owner
    refine ha.of_count_eq (fun y => ?_) fun y hy => ?_
    · simp only [Multiset.coe_nil, zero_add]
      exact Multiset.count_le_count_cons y x C
    · have hyx : y ≠ x := by
        rintro rfl
        rcases hx with hx | hx
        · exact hy hx
        · have := ha.count y 0 hx
          rw [Multiset.count_cons_self] at this
          omega
      simp only [Multiset.coe_nil, zero_add]
      exact (Multiset.count_cons_of_ne hyx C).symm
  | @lessObject id o ho hi h0 h1 =>
    have hpred : (o.refs - 1).toNat + 1 = o.refs.toNat := toNat_sub_one h0
    refine ha.setObject ho rfl (fun hd => ?_) fun y => ?_
    · exact absurd (ha.object_refs_of_dead ho hd).1 h0
    · have hheld : ({ o with refs := o.refs - 1 } : Object).held = o.held := rfl
      simp only [hheld, Multiset.coe_nil, zero_add, Multiset.count_cons]
      split_ifs <;> omega
  | @lastObject id o ho hi h1 =>
    -- what is dead has no count left
    have hd : o.dead = false := by
      cases hd : o.dead
      · rfl
      · exact absurd ((ha.object_refs_of_dead ho hd).1.symm.trans h1) (by decide)
    have himm : o.destroyed.payload.isImmortal = false := by
      cases hp : o.payload <;> simp_all [Object.destroyed, Payload.emptied, Payload.isImmortal]
    refine ha.setObject ho (himm.trans hi.symm) (fun _ => ⟨rfl, himm, fun s => ?_⟩) fun y => ?_
    · simp [Object.destroyed]
    · simp only [Object.held, Object.destroyed, hd, h1, if_true, Bool.false_eq_true, if_false,
        Multiset.count_add, Multiset.coe_count, Multiset.count_cons, List.count_nil,
        UInt32.toNat_one, UInt32.toNat_zero]
      split_ifs <;> omega
  | @lessScope id s hs h0 h1 =>
    have hpred : (s.refs - 1).toNat + 1 = s.refs.toNat := toNat_sub_one h0
    refine ha.setScope hs (fun hd => ?_) fun y => ?_
    · exact absurd (ha.scope_refs_of_dead hs hd) h0
    · have hheld : ({ s with refs := s.refs - 1 } : Scope).held = s.held := rfl
      simp only [hheld, Multiset.coe_nil, zero_add, Multiset.count_cons]
      split_ifs <;> omega
  | @lastScope id s hs h1 hd =>
    refine (ha.setScope hs (fun _ => rfl) fun y => ?_).updateRegistry _ _
    simp only [Scope.held, Scope.destroyed, hd, h1, if_true, Bool.false_eq_true, if_false,
      Multiset.count_add, Multiset.coe_count, Multiset.count_cons, List.count_nil,
      UInt32.toNat_one, UInt32.toNat_zero]
    split_ifs <;> omega

/-- **Giving up references keeps the books right**, whatever is destroyed on the way. -/
theorem drop {died : Array Demise} {work : List Handle}
    (ha : h.Accounts ((work : Share) + C)) : (h.drop died work).1.Accounts C := by
  fun_induction Heap.drop with
  | case1 => simpa using ha
  | case2 h died x rest step ih =>
    -- what the first step frees joins the rest, and both are owned from outside
    rw [← Multiset.cons_coe, Multiset.cons_add] at ha
    have := ha.step (drops_dropOne h x)
    rw [← add_assoc, Multiset.coe_add] at this
    exact ih this

end Accounts

end Heap

end CountedLisp
