import CountedLisp.Proofs.Bindings
import CountedLisp.Proofs.Cascades
import CountedLisp.Proofs.Neutrality

/-!
# Moving a scope

`Scope.adopt` makes a new scope with the bindings of an old one and gives up a reference to this.
First all values and the scope around get a new owner, and only then is the old scope released. If
that was the last reference to it, the new owners take over from the old ones, and whatever the old
scope owned has the counts it had before.

`Heap.ShiftsAt` says that something is the same as before but for its count, and by how much that
has changed; counts are added up over a run, and what is first added and then taken away leaves no
trace. Giving up references destroys nothing as long as there are more owners than that
(`shiftsAt_drop`).
-/

namespace CountedLisp

open Run

/-- An object with more owners, or fewer; the empty list is not counted. -/
def Object.shifted (d : UInt32) (o : Object) : Object :=
  if o.payload.isImmortal then o else { o with refs := o.refs + d }

/-- A scope with more owners, or fewer. -/
def Scope.shifted (d : UInt32) (x : Scope) : Scope :=
  { x with refs := x.refs + d }

namespace Heap

/-- What a reference points to is the same in both heaps but for its count, which differs by `d`. -/
def ShiftsAt (h h' : Heap) (d : UInt32) : Handle → Prop
  | .object id => h'.object? id = (h.object? id).map (Object.shifted d)
  | .scope id => h'.scope? id = (h.scope? id).map (Scope.shifted d)

/-- All that is referred to lives and can get one more owner for each reference. -/
def Room (h : Heap) (D : Share) : Prop :=
  ∀ y ∈ D, h.Lives y ∧ ∀ n, h.count? y = some n → n + D.count y < 2 ^ 32

end Heap

/-! ### Counts that change -/

namespace Object

theorem shifted_zero (o : Object) : o.shifted 0 = o := by
  simp [shifted]

theorem shifted_shifted (d e : UInt32) (o : Object) :
    (o.shifted d).shifted e = o.shifted (d + e) := by
  unfold shifted
  split_ifs with hi
  · rfl
  · simp [UInt32.add_assoc]

theorem payload_shifted (d : UInt32) (o : Object) : (o.shifted d).payload = o.payload := by
  unfold shifted
  split_ifs <;> rfl

theorem dead_shifted (d : UInt32) (o : Object) : (o.shifted d).dead = o.dead := by
  unfold shifted
  split_ifs <;> rfl

theorem refs_shifted (d : UInt32) {o : Object} (hi : o.payload.isImmortal = false) :
    (o.shifted d).refs = o.refs + d := by
  simp [shifted, hi]

/-- One of several owners is taken away. -/
theorem lessened_eq_shifted {o : Object}
    (hrefs : o.payload.isImmortal = false → 1 < o.refs.toNat) : o.lessened = o.shifted (-1) := by
  unfold lessened shifted
  cases hi : o.payload.isImmortal with
  | true => simp
  | false =>
    have hlt := hrefs hi
    have h0 : o.refs ≠ 0 := fun h0 => by simp [h0] at hlt
    have h1 : o.refs ≠ 1 := fun h1 => by simp [h1] at hlt
    simp [h0, h1, UInt32.sub_eq_add_neg]

end Object

namespace Scope

/-- One of several owners is taken away. -/
theorem lessened_eq_shifted {x : Scope} (hrefs : 1 < x.refs.toNat) :
    x.lessened = x.shifted (-1) := by
  have h0 : x.refs ≠ 0 := fun h0 => by simp [h0] at hrefs
  have h1 : x.refs ≠ 1 := fun h1 => by simp [h1] at hrefs
  simp [lessened, isLast, shifted, h0, h1, UInt32.sub_eq_add_neg]

theorem shifted_zero (x : Scope) : x.shifted 0 = x := by
  simp [shifted]

theorem shifted_shifted (d e : UInt32) (x : Scope) :
    (x.shifted d).shifted e = x.shifted (d + e) := by
  simp [shifted, UInt32.add_assoc]

end Scope

namespace Heap

variable {h h' h'' : Heap} {d e : UInt32} {y : Handle}

theorem shiftsAt_zero : h.ShiftsAt h' 0 y ↔ h.SameAt h' y := by
  cases y with
  | object id => simp [ShiftsAt, SameAt, funext Object.shifted_zero]
  | scope id => simp [ShiftsAt, SameAt, funext Scope.shifted_zero]

theorem shiftsAt_neg_zero : h.ShiftsAt h' (-(UInt32.ofNat 0)) y ↔ h.SameAt h' y := by
  rw [show UInt32.ofNat 0 = 0 from rfl, UInt32.neg_zero, shiftsAt_zero]

theorem ShiftsAt.trans (h1 : h.ShiftsAt h' d y) (h2 : h'.ShiftsAt h'' e y) :
    h.ShiftsAt h'' (d + e) y := by
  cases y with
  | object id =>
    rw [ShiftsAt, h2, h1, Option.map_map]
    exact congrArg (Option.map · _) (funext (Object.shifted_shifted d e))
  | scope id =>
    rw [ShiftsAt, h2, h1, Option.map_map]
    exact congrArg (Option.map · _) (funext (Scope.shifted_shifted d e))

theorem ShiftsAt.trans_same (h1 : h.ShiftsAt h' d y) (h2 : h'.SameAt h'' y) :
    h.ShiftsAt h'' d y := by
  have := h1.trans (shiftsAt_zero.2 h2)
  rwa [UInt32.add_zero] at this

theorem ShiftsAt.lives (hs : h.ShiftsAt h' d y) (hy : h.Lives y) : h'.Lives y := by
  cases y with
  | object id =>
    obtain ⟨o, ho, hd⟩ := hy
    exact ⟨o.shifted d, by rw [hs, ho, Option.map_some], (o.dead_shifted d).trans hd⟩
  | scope id =>
    obtain ⟨x, hx, hd⟩ := hy
    exact ⟨x.shifted d, by rw [hs, hx, Option.map_some], hd⟩

theorem ShiftsAt.count?_eq (hs : h.ShiftsAt h' d y) :
    h'.count? y = (h.count? y).map fun n => (n + d.toNat) % 2 ^ 32 := by
  cases y with
  | object id =>
    simp only [count?, show h'.object? id = _ from hs]
    cases h.object? id with
    | none => rfl
    | some o =>
      simp only [Option.map_some, Option.bind_some, Object.payload_shifted]
      split_ifs with hi
      · rfl
      · simp [o.refs_shifted d (Bool.eq_false_iff.2 hi), UInt32.toNat_add]
  | scope id =>
    simp only [count?, show h'.scope? id = _ from hs, Option.map_map]
    rfl

theorem size_scopes_of_shiftsAt {d : ScopeId → UInt32}
    (hs : ∀ id, h.ShiftsAt h' (d id) (.scope id)) : h'.scopes.size = h.scopes.size := by
  have hnone : ∀ id : ScopeId, h'.scopes.size ≤ id.index ↔ h.scopes.size ≤ id.index := fun id => by
    have hid : h'.scope? id = _ := hs id
    rw [← scope?_eq_none_iff, ← scope?_eq_none_iff, hid, Option.map_eq_none_iff]
  exact le_antisymm ((hnone ⟨_⟩).2 (le_refl _)) ((hnone ⟨_⟩).1 (le_refl _))

theorem Room.of_le_left {D E : Share} (hr : h.Room (D + E)) : h.Room D := fun y hy => by
  obtain ⟨hlives, hroom⟩ := hr y (Multiset.mem_add.2 (.inl hy))
  refine ⟨hlives, fun n hn => ?_⟩
  have hlt := hroom n hn
  rw [Multiset.count_add] at hlt
  omega

/-- Some of the references that there is room for have got their owners. -/
theorem Room.of_add {D E : Share} (hr : h.Room (D + E))
    (hs : ∀ y ∈ E, h.ShiftsAt h' (UInt32.ofNat (D.count y)) y) : h'.Room E := by
  intro y hy
  obtain ⟨hlives, hroom⟩ := hr y (Multiset.mem_add.2 (.inr hy))
  refine ⟨(hs y hy).lives hlives, fun n hn => ?_⟩
  rw [(hs y hy).count?_eq, Option.map_eq_some_iff] at hn
  obtain ⟨m, hm, rfl⟩ := hn
  have hlt := hroom m hm
  rw [Multiset.count_add] at hlt
  rw [UInt32.toNat_ofNat']
  omega

/-! ### Giving up one of several owners -/

/-- One of several references is given up. -/
theorem shiftsAt_dropOne {x : Handle} (hx : ∀ n, h.count? x = some n → 1 < n) (y : Handle) :
    h.ShiftsAt (h.dropOne x).heap (if x = y then -1 else 0) y := by
  by_cases hxy : x = y
  · subst hxy
    rw [if_pos rfl]
    cases x with
    | object id =>
      rw [ShiftsAt, object?_dropOne, if_pos rfl]
      cases ho : h.object? id with
      | none => rw [Option.map_none, Option.map_none]
      | some o =>
        refine congrArg some (Object.lessened_eq_shifted fun hi => hx _ ?_)
        simp [count?, ho, hi]
    | scope id =>
      rw [ShiftsAt, scope?_dropOne, if_pos rfl]
      cases hs : h.scope? id with
      | none => rw [Option.map_none, Option.map_none]
      | some s =>
        refine congrArg some (Scope.lessened_eq_shifted (hx _ ?_))
        simp [count?, hs]
  · rw [if_neg hxy]
    exact shiftsAt_zero.2 (sameAt_dropOne h hxy)

/-- **References that have other owners besides them** are given up, and nothing is destroyed. -/
theorem shiftsAt_drop (work : List Handle)
    (hw : ∀ y ∈ work, ∀ n, h.count? y = some n → work.count y < n) (died : Array Demise)
    (y : Handle) : h.ShiftsAt (h.drop died work).1 (-(UInt32.ofNat (work.count y))) y := by
  induction work generalizing h died with
  | nil =>
    rw [drop_nil, List.count_nil]
    exact shiftsAt_neg_zero.2 (.refl h y)
  | cons x work ih =>
    have hx : ∀ n, h.count? x = some n → 1 < n := fun n hn => by
      have hlt := hw x List.mem_cons_self n hn
      rw [List.count_cons_self] at hlt
      omega
    have hdemise : (h.dropOne x).demise = none := Classical.byContradiction fun hne =>
      absurd (hx 1 (dropOne_of_demise_ne_none hne).1) (lt_irrefl 1)
    -- a step that destroys nothing adds nothing to the list
    rw [drop_cons, (dropOne_of_demise_eq_none hdemise).1, List.nil_append]
    have hrest := ih (h := (h.dropOne x).heap) (fun z hz n hn => ?_)
      (died ++ (h.dropOne x).demise.toArray)
    · convert (shiftsAt_dropOne hx y).trans hrest using 1
      rw [List.count_cons, Nat.add_comm, UInt32.ofNat_add, UInt32.neg_add, UInt32.sub_eq_add_neg]
      by_cases hxy : x = y <;> simp [hxy]
    · have hlt := hw z (List.mem_cons_of_mem x hz)
      rw [count?_dropOne] at hn
      rw [List.count_cons] at hlt
      by_cases hxz : x = z
      · rw [if_pos hxz, Option.map_eq_some_iff] at hn
        obtain ⟨m, hm, rfl⟩ := hn
        have := hlt m hm
        simp only [hxz, beq_self_eq_true, if_true] at this
        omega
      · rw [if_neg hxz] at hn
        exact lt_of_le_of_lt (Nat.le_add_right _ _) (hlt n hn)

/-! ### One more owner -/

theorem shiftsAt_setObject {id : ObjectId} {o : Object} (ho : h.object? id = some o) (d : UInt32)
    (y : Handle) :
    h.ShiftsAt (h.setObject id (o.shifted d)) (if y = .object id then d else 0) y := by
  by_cases hy : y = .object id
  · subst hy
    rw [if_pos rfl, ShiftsAt, object?_setObject_self _ ho, ho, Option.map_some]
  · rw [if_neg hy, shiftsAt_zero]
    exact sameAt_setObject _ hy

theorem shiftsAt_setScope {id : ScopeId} {x : Scope} (hx : h.scope? id = some x) (d : UInt32)
    (y : Handle) : h.ShiftsAt (h.setScope id (x.shifted d)) (if y = .scope id then d else 0) y := by
  by_cases hy : y = .scope id
  · subst hy
    rw [if_pos rfl, ShiftsAt, scope?_setScope_self _ hx, hx, Option.map_some]
  · rw [if_neg hy, shiftsAt_zero]
    exact sameAt_setScope _ hy

end Heap

theorem Share.scope_notMem_refs (id : ScopeId) (rs : List Ref) : Handle.scope id ∉ refs rs := by
  intro hmem
  obtain ⟨r, -, hr⟩ := mem_refs.1 hmem
  obtain ⟨o, -, ho⟩ := mem_ref.1 hr
  cases ho

/-- The second world has one more owner for each of the references in `D`, and these are owned by
whoever runs. -/
structure World.Raises (w w' : World) (D : Share) : Prop where
  passes : w.Passes w' 0 D
  shifts : ∀ y, w.heap.ShiftsAt w'.heap (UInt32.ofNat (D.count y)) y

variable {w w' : World}

theorem World.Raises.refl (w : World) : w.Raises w 0 where
  passes := ⟨rfl, rfl, ⟨.refl _, fun _ hf => hf, fun ha => ha⟩⟩
  shifts y := Heap.shiftsAt_zero.2 (.refl w.heap y)

/-- A count that there is room above is not at its maximum. -/
theorem ne_maxCount {n : UInt32} (hn : n.toNat + 1 < 2 ^ 32) : n ≠ maxCount := by
  rintro rfl
  exact absurd hn (by decide)

/-- An object that there is room for gets one more owner. -/
theorem Object.retain_raises {r : Ref} (hw : w.reclaim = true) (hr : w.heap.Room (Share.ref r)) :
    ∃ w', retain r w = .ok r w' ∧ w.Raises w' (Share.ref r) := by
  cases r with
  | none => exact ⟨w, rfl, .refl w⟩
  | some id =>
    obtain ⟨⟨o, ho, hd⟩, hroom⟩ := hr (.object id) (Multiset.mem_singleton_self _)
    have hshift : ∀ y, w.heap.ShiftsAt (w.heap.setObject id (o.shifted 1))
        (UInt32.ofNat ((Share.ref (some id)).count y)) y := fun y => by
      convert Heap.shiftsAt_setObject ho 1 y using 1
      rw [Share.ref_some, Multiset.count_singleton]
      split_ifs <;> rfl
    rw [retain_eq, ho]
    cases hi : o.payload.isImmortal with
    | true =>
      rw [show o.shifted 1 = o by simp [shifted, hi], Heap.setObject_same ho] at hshift
      exact ⟨w, by simp [hi], ⟨rfl, rfl, .addImmortal ho hi⟩, hshift⟩
    | false =>
      have hmax : o.refs ≠ maxCount := ne_maxCount (by
        have := hroom o.refs.toNat (by simp [Heap.count?, ho, hi])
        rwa [Share.ref_some, Multiset.count_singleton_self] at this)
      rw [show o.shifted 1 = { o with refs := o.refs + 1 } by simp [shifted, hi]] at hshift
      dsimp only
      rw [if_neg (by simp [hi, hw]), if_neg (by simp [hd]), if_neg hmax]
      exact ⟨_, rfl, ⟨rfl, rfl, .retainObject ho hd hmax⟩, hshift⟩

namespace Scope

/-- A scope that there is room for gets one more owner. -/
theorem retain_raises {s : ScopeRef} (hr : w.heap.Room (Share.scope s)) :
    ∃ w', retain s w = .ok s w' ∧ w.Raises w' (Share.scope s) := by
  cases s with
  | none => exact ⟨w, rfl, .refl w⟩
  | some id =>
    obtain ⟨⟨x, hx, hd⟩, hroom⟩ := hr (.scope id) (Multiset.mem_singleton_self _)
    have hmax : x.refs ≠ maxCount := ne_maxCount (by
      have := hroom x.refs.toNat (by simp [Heap.count?, hx])
      rwa [Share.scope_some, Multiset.count_singleton_self] at this)
    have hshift : ∀ y, w.heap.ShiftsAt (w.heap.setScope id (x.shifted 1))
        (UInt32.ofNat ((Share.scope (some id)).count y)) y := fun y => by
      convert Heap.shiftsAt_setScope hx 1 y using 1
      rw [Share.scope_some, Multiset.count_singleton]
      split_ifs <;> rfl
    rw [retain_eq, hx]
    dsimp only
    rw [if_neg (by simp [hd])]
    exact ⟨_, rfl, ⟨rfl, rfl, .retainScope hx hd hmax⟩, hshift⟩

/-! ### Making and filling a scope -/

/-- A new scope inside of one that there is room for. -/
theorem make_raises {parent : ScopeRef} (hr : w.heap.Room (Share.scope parent)) :
    ∃ w' name serial registry, make parent w = .ok ⟨w.heap.scopes.size⟩ w' ∧
      w'.heap.scope? ⟨w.heap.scopes.size⟩ = some (new name serial parent registry) ∧
      w.Passes w' 0 (Share.scope (some ⟨w.heap.scopes.size⟩)) ∧
      ∀ y, w.heap.Knows y →
        w.heap.ShiftsAt w'.heap (UInt32.ofNat ((Share.scope parent).count y)) y := by
  -- the number comes first, so that the scope around gets its new owner in a later heap
  obtain ⟨w₁, h₁, hraises⟩ := retain_raises (s := parent)
    (w := { w with heap := { w.heap with serial := w.heap.serial + 1 } }) hr
  obtain ⟨name, l, hmake⟩ := make_of_retain h₁
  have hsize : w₁.heap.scopes.size = w.heap.scopes.size :=
    Heap.size_scopes_of_shiftsAt fun id => hraises.shifts (.scope id)
  have hpasses := passes_enter name (w.heap.serial + 1) parent w₁.heap
  have hscope := scope?_enter name (w.heap.serial + 1) parent w₁.heap
  rw [← hsize]
  refine ⟨_, name, _, _, hmake, (hscope _).trans (Heap.scope?_addScope_new _ _),
    ⟨hraises.passes.reclaim, hraises.passes.frames, ?_⟩, fun y hy => ?_⟩
  · exact (Heap.Passes.setRest _ _ _ 0).trans (hraises.passes.heap.trans hpasses)
  · have hne : y ≠ .scope ⟨w₁.heap.scopes.size⟩ := by
      rintro rfl
      exact absurd hsize (Nat.ne_of_lt hy)
    have hsame : w₁.heap.SameAt (enter name (w.heap.serial + 1) parent w₁.heap).2 y := by
      rw [enter_eq]
      exact (Heap.sameAt_addScope hne).trans (Heap.sameAt_updateRegistry _ _ _ y)
    exact (hraises.shifts y).trans_same hsame

/-- Bindings are added to a living scope. -/
theorem appendAll_raises {id : ScopeId} {x : Scope} {b : List (Text × Ref)} (hw : w.reclaim = true)
    (hx : w.heap.scope? id = some x) (hd : x.dead = false)
    (hr : w.heap.Room (Share.refs (b.map fun e => e.2))) :
    ∃ w', appendAll id b w = .ok () w' ∧
      w'.heap.scope? id = some { x with bindings := x.bindings ++ b } ∧ w.Passes w' 0 0 ∧
      ∀ y, y ≠ .scope id →
        w.heap.ShiftsAt w'.heap (UInt32.ofNat ((Share.refs (b.map fun e => e.2)).count y)) y := by
  induction b generalizing w x with
  | nil =>
    exact ⟨w, rfl, by simpa using hx, (World.Raises.refl w).passes,
      fun y _ => (World.Raises.refl w).shifts y⟩
  | cons e b ih =>
    obtain ⟨name, value⟩ := e
    rw [List.map_cons, Share.refs_cons] at hr
    obtain ⟨w₁, h₁, hraises⟩ := Object.retain_raises hw hr.of_le_left
    obtain ⟨-, h', rfl, hscope, -⟩ := Object.retain_ok h₁
    have hx₁ : h'.scope? id = some x := by rw [hscope, hx]
    have happend := append_some name value hx₁
    have hsame : ∀ y, y ≠ .scope id → h'.SameAt (append id name value h') y := fun y hy => by
      rw [happend]
      exact Heap.sameAt_setScope _ hy
    -- there is room left for the other bindings, since their values are no scopes
    have hne : ∀ y ∈ Share.refs (b.map fun e => e.2), y ≠ .scope id := by
      rintro y hy rfl
      exact Share.scope_notMem_refs id _ hy
    obtain ⟨w', h₂, hx', hpasses, hshifts⟩ := ih (w := { w with heap := append id name value h' })
      (x := { x with bindings := x.bindings ++ [(name, value)] }) hw
      (by rw [happend]; exact Heap.scope?_setScope_self _ hx₁) hd
      (hr.of_add fun y hy => (hraises.shifts y).trans_same (hsame y (hne y hy)))
    refine ⟨w', ?_, by simpa using hx', hraises.passes.trans (.trans ?_ hpasses), fun y hy => ?_⟩
    · unfold appendAll
      rw [bind_ok h₁]
      exact h₂
    · refine ⟨rfl, rfl, ?_⟩
      rw [happend]
      exact .setBindings hx₁ hd (by simp [add_comm])
    · have := ((hraises.shifts y).trans_same (hsame y hy)).trans (hshifts y hy)
      rwa [← UInt32.ofNat_add, ← Multiset.count_add, ← Share.refs_cons] at this

theorem coe_owned (x : Scope) :
    (x.owned : Share) = Share.scope x.parent + Share.refs (x.bindings.map fun e => e.2) := by
  rw [owned, ← Multiset.coe_add, add_comm]
  rfl

/-- A new scope with the bindings of another one, inside of the same scope: everything that the
other one owns has one more owner for each time it owns it. -/
theorem copy_raises {x : Scope} (hw : w.reclaim = true) (hr : w.heap.Room (x.owned : Share)) :
    ∃ w₁ w₂ y, make x.parent w = .ok ⟨w.heap.scopes.size⟩ w₁ ∧
      appendAll ⟨w.heap.scopes.size⟩ x.bindings w₁ = .ok () w₂ ∧
      w₂.heap.scope? ⟨w.heap.scopes.size⟩ = some y ∧
      (y.refs = 1 ∧ y.dead = false ∧ y.parent = x.parent ∧ y.bindings = x.bindings) ∧
      w.Passes w₂ 0 (Share.scope (some ⟨w.heap.scopes.size⟩)) ∧
      ∀ y, w.heap.Knows y → w.heap.ShiftsAt w₂.heap (UInt32.ofNat (x.owned.count y)) y := by
  rw [coe_owned] at hr
  obtain ⟨w₁, name, serial, registry, hmake, hnew, hpasses, hshifts⟩ := make_raises hr.of_le_left
  have hroom := hr.of_add fun y hy => hshifts y (hr y (Multiset.mem_add.2 (.inr hy))).1.knows
  obtain ⟨w₂, happend, hy, hpasses', hshifts'⟩ :=
    appendAll_raises (hpasses.reclaim.trans hw) hnew rfl hroom
  refine ⟨w₁, w₂, _, hmake, happend, hy, ⟨rfl, rfl, rfl, rfl⟩, ?_, fun y hk => ?_⟩
  · have := hpasses.trans ((hpasses'.frame (Share.scope (some ⟨w.heap.scopes.size⟩))).cast
      (zero_add _) (zero_add _))
    exact this
  · have hne : y ≠ .scope ⟨w.heap.scopes.size⟩ := by
      rintro rfl
      exact absurd hk (lt_irrefl _)
    have := (hshifts y hk).trans (hshifts' y hne)
    rwa [← UInt32.ofNat_add, ← Multiset.count_add, ← coe_owned, Multiset.coe_count] at this

/-! ### Releasing a scope -/

theorem heap_releaseScope (hw : w.reclaim = true) (id : ScopeId) :
    (w.releaseScope (some id)).heap = (w.heap.drop #[] [.scope id]).1 := by
  simp [World.releaseScope, World.drop, hw, Handle.ofScope]

/-- One of several owners of a scope gives it up. -/
theorem release_shared {id : ScopeId} {x : Scope} (hw : w.reclaim = true)
    (hx : w.heap.scope? id = some x) (hrefs : 1 < x.refs.toNat) :
    (w.releaseScope (some id)).heap.scope? id = some { x with refs := x.refs - 1 } ∧
      ∀ y, y ≠ .scope id → w.heap.SameAt (w.releaseScope (some id)).heap y := by
  have hshift := Heap.shiftsAt_drop (h := w.heap) [.scope id] (fun y hy n hn => ?_) #[]
  · rw [heap_releaseScope hw]
    refine ⟨?_, fun y hy => Heap.shiftsAt_neg_zero.1 ?_⟩
    · have hid : _ = _ := hshift (.scope id)
      rw [hid, hx, List.count_singleton_self, UInt32.sub_eq_add_neg]
      rfl
    · have := hshift y
      rwa [List.count_singleton, if_neg (by simpa using Ne.symm hy)] at this
  · rw [List.mem_singleton] at hy
    subst hy
    simp only [Heap.count?, hx, Option.map_some, Option.some.injEq] at hn
    rw [List.count_singleton_self]
    omega

/-- The last owner of a scope gives it up. What the scope owned has other owners, and so nothing
else is destroyed. -/
theorem release_last {id : ScopeId} {x : Scope} (hw : w.reclaim = true)
    (hx : w.heap.scope? id = some x) (hd : x.dead = false) (hrefs : x.refs = 1)
    (howned : ∀ y ∈ x.owned, y ≠ .scope id ∧ ∀ n, w.heap.count? y = some n → x.owned.count y < n) :
    (w.releaseScope (some id)).heap.scope? id = some x.destroyed ∧
      ∀ y, y ≠ .scope id → w.heap.ShiftsAt (w.releaseScope (some id)).heap
        (-(UInt32.ofNat (x.owned.count y))) y := by
  have hdemise : (w.heap.dropOne (.scope id)).demise ≠ none := by
    simp [Heap.dropOne, Heap.dropScope, hx, hrefs, Heap.destroyScope, hd]
  -- the first step destroys the scope, and then what it owned is given up
  have hfreed : (w.heap.dropOne (.scope id)).freed = x.owned := by
    rw [(Heap.dropOne_of_demise_ne_none hdemise).2.1]
    simp [Heap.ownedBy, hx]
  have hsame := fun y (hy : y ≠ .scope id) => Heap.sameAt_dropOne w.heap (Ne.symm hy)
  have hshift := Heap.shiftsAt_drop (h := (w.heap.dropOne (.scope id)).heap) x.owned
    (fun y hy n hn => (howned y hy).2 n ((hsame y (howned y hy).1).count?_eq ▸ hn))
    (#[] ++ (w.heap.dropOne (.scope id)).demise.toArray)
  rw [heap_releaseScope hw, Heap.drop_cons, hfreed, List.append_nil]
  refine ⟨?_, fun y hy => ?_⟩
  · have hnot : x.owned.count (.scope id) = 0 :=
      List.count_eq_zero.2 fun hmem => (howned _ hmem).1 rfl
    have hid := hshift (.scope id)
    rw [hnot, Heap.shiftsAt_neg_zero] at hid
    rw [show _ = _ from hid, Heap.scope?_dropOne, if_pos rfl, hx]
    simp [lessened, isLast, hrefs, hd]
  · have := (Heap.shiftsAt_zero.2 (hsame y hy)).trans (hshift y)
    rwa [UInt32.zero_add] at this

/-! ### Looking up names -/

variable {h h' : Heap} {name : Text}

theorem resolve?_of_dead {id : ScopeId} (hd : isAlive h id = false) :
    resolve? h (some id) name = none := by
  show search h name ((h.chain id).takeWhile (isAlive h)) = none
  cases hx : h.scope? id with
  | none =>
    rw [Heap.chain, hx]
    rfl
  | some x =>
    obtain ⟨rest, hchain⟩ : ∃ rest, h.chain id = id :: rest := by
      rw [Heap.chain, hx]
      dsimp only
      split
      · exact ⟨[], rfl⟩
      · split_ifs
        · exact ⟨_, rfl⟩
        · exact ⟨[], rfl⟩
    rw [hchain, List.takeWhile_cons_of_neg (by simp [hd])]
    rfl

theorem resolve?_of_lives {id : ScopeId} {x : Scope} (hx : h.scope? id = some x)
    (hd : x.dead = false) (hq : ∀ q, x.parent = some q → q.index < id.index) :
    resolve? h (some id) name =
      (x.get? name).elim (resolve? h x.parent name) fun v => some (v, id) := by
  have hchain : h.chainFrom (some id) = id :: h.chainFrom x.parent := by
    rw [Heap.chainFrom, Heap.chain, hx]
    cases hp : x.parent with
    | none => simp [hp, Heap.chainFrom]
    | some q => simp [hp, Heap.chainFrom, hq q hp]
  unfold resolve?
  rw [hchain, List.takeWhile_cons_of_pos (isAlive_of_lives ⟨x, hx, hd⟩)]
  cases hv : x.get? name with
  | none => exact search_cons_none _ hx hv
  | some v => exact search_cons_some _ hx hv

/-- A name is looked up in scopes that are the same but for their counts. -/
theorem resolve?_congr (hl : h.Lineal) {id : ScopeId}
    (hs : ∀ q : ScopeId, q.index ≤ id.index → ∃ d, h.ShiftsAt h' d (.scope q)) :
    resolve? h' (some id) name = resolve? h (some id) name := by
  -- the induction is on the number of the scope: those around it have smaller ones
  induction hn : id.index using Nat.strong_induction_on generalizing id with
  | _ n ih =>
    subst hn
    obtain ⟨d, hid⟩ := hs id (le_refl _)
    have hid : h'.scope? id = (h.scope? id).map (shifted d) := hid
    have halive : isAlive h' id = isAlive h id := by
      unfold isAlive
      rw [hid]
      cases h.scope? id <;> rfl
    cases hlive : isAlive h id with
    | false => rw [resolve?_of_dead hlive, resolve?_of_dead (halive.trans hlive)]
    | true =>
      obtain ⟨x, hx, hd⟩ : h.Lives (.scope id) := by
        unfold isAlive at hlive
        split at hlive
        · next x hx => exact ⟨x, hx, by simpa using hlive⟩
        · cases hlive
      rw [hx] at hid
      have hparent := fun q hq => (hl.parent (q := q) hx hq).1
      rw [resolve?_of_lives hx hd hparent, resolve?_of_lives hid hd hparent]
      have hout : resolve? h' x.parent name = resolve? h x.parent name := by
        cases hq : x.parent with
        | none => rfl
        | some q =>
          exact ih q.index (hparent q hq) (fun t ht => hs t (ht.trans (hparent q hq).le)) rfl
      exact congrArg (fun r => (x.get? name).elim r fun v => some (v, id)) hout

theorem lookup_eq {id : ScopeId} {x : Scope} (hx : w.heap.scope? id = some x)
    (hd : x.dead = false) : lookup (some id) name w = Run.ofExcept
      ((resolve? w.heap (some id) name).elim (.error (unbound "lookup" name)) (.ok ·.1)) w := by
  unfold lookup
  rw [get_bind]
  cases resolve? w.heap (some id) name with
  | some p => rfl
  | none =>
    dsimp only
    rw [bind_ok (expect_of_lives "lookup" hx hd)]
    rfl

/-- In a scope that has been destroyed no name is found. -/
theorem lookup_of_dead {id : ScopeId} {x : Scope} (hx : w.heap.scope? id = some x)
    (hd : x.dead = true) : lookup (some id) name w = .error (.failure (.of .typeMismatch "lookup"
      "live environment" ("destroyed " ++ x.name))) w := by
  have halive : isAlive w.heap id = false := by simp [isAlive, hx, hd]
  unfold lookup
  rw [get_bind, resolve?_of_dead halive]
  exact bind_error (expect_of_dead "lookup" hx hd)

end Scope

/-! ### Moving a scope -/

/-- The scope `id`, which was `x`, has been moved to `moved`. -/
structure Heap.Adopts (h h' : Heap) (id : ScopeId) (x : Scope) (moved : ScopeId) : Prop where
  /-- The new scope was not there before. -/
  fresh : h.scope? moved = none
  /-- It has one owner, the same scope around it and the same bindings in the same order. -/
  moved : ∃ y, h'.scope? moved = some y ∧ y.refs = 1 ∧ y.dead = false ∧ y.parent = x.parent ∧
    y.bindings = x.bindings
  /-- If there was one reference to the old scope, it is destroyed and nothing else has changed. -/
  last : x.refs = 1 → h'.scope? id = some x.destroyed ∧
    ∀ y, h.Knows y → y ≠ .scope id → h.SameAt h' y
  /-- Otherwise it has lost one reference, and all that it owns has as many more owners as it has
  places in the scope. -/
  shared : x.refs ≠ 1 → h'.scope? id = some { x with refs := x.refs - 1 } ∧
    ∀ y, h.Knows y → y ≠ .scope id → h.ShiftsAt h' (UInt32.ofNat (x.owned.count y)) y

theorem Heap.Adopts.shiftsAt {h h' : Heap} {id moved : ScopeId} {x : Scope}
    (ha : h.Adopts h' id x moved) {y : Handle} (hk : h.Knows y) (hne : y ≠ .scope id) :
    ∃ d, h.ShiftsAt h' d y := by
  by_cases hrefs : x.refs = 1
  · exact ⟨0, shiftsAt_zero.2 ((ha.last hrefs).2 y hk hne)⟩
  · exact ⟨_, (ha.shared hrefs).2 y hk hne⟩

/-- What a client without programs gets to from nothing. -/
theorem Client.Holdings.exact_afterAll {s : Holdings} {calls : List Call}
    (h : afterAll .none ⟨0, {}⟩ calls = some s) (hc : s.world.conduct = {}) :
    s.world.Exact s.owned ∧ s.world.heap.Lineal := by
  have hbooks := (books_afterAll (C := 0) (Engine.sound_none False) h
    (World.Fresh.books ⟨rfl, rfl, rfl, rfl⟩)).1
  refine ⟨(hbooks.cast (add_zero _).symm).exact (by rw [hc]; exact ⟨rfl, rfl, rfl⟩)
    (by rw [hc]), ?_⟩
  rw [world_afterAll h]
  exact lineal_afterDeeds (.program 0) ⟨rfl, rfl, rfl, rfl⟩ _

namespace Scope

variable {id moved : ScopeId} {x : Scope}

/-- Names are looked up as before. -/
theorem lookup_of_adopts (ha : w.heap.Adopts w'.heap id x moved) (hl : w.heap.Lineal)
    (hx : w.heap.scope? id = some x) (hd : x.dead = false) (name : Text) :
    ∃ r, lookup (some id) name w = Run.ofExcept r w ∧
      lookup (some moved) name w' = Run.ofExcept r w' := by
  obtain ⟨y, hy, -, hdy, hparent, hbindings⟩ := ha.moved
  have hlt := Heap.lt_size_of_scope? hx
  have hmoved : w.heap.scopes.size ≤ moved.index := Heap.scope?_eq_none_iff.1 ha.fresh
  have hinner := fun q hq => (hl.parent (q := q) hx hq).1
  have hout : resolve? w'.heap x.parent name = resolve? w.heap x.parent name := by
    cases hq : x.parent with
    | none => rfl
    | some q =>
      -- scopes further out have smaller numbers than the old scope
      refine resolve?_congr hl fun t ht => ha.shiftsAt ?_ ?_
      · exact (ht.trans_lt (hinner q hq)).trans hlt
      · rintro ⟨rfl⟩
        exact absurd (ht.trans_lt (hinner q hq)) (lt_irrefl _)
  refine ⟨_, lookup_eq hx hd, (lookup_eq hy hdy).trans ?_⟩
  rw [resolve?_of_lives hx hd hinner, resolve?_of_lives hy hdy fun q hq =>
    (hinner q (hparent ▸ hq)).trans (hlt.trans_le hmoved), hparent, hout, get?, hbindings, ← get?]
  cases x.get? name <;> rfl

/-- Once there is a copy of it with owners of its own, a scope is released. -/
theorem adopts_releaseScope (hw : w'.reclaim = true) (hx : w.heap.scope? id = some x)
    (hd : x.dead = false) (hrefs : 0 < x.refs.toNat) (hself : .scope id ∉ x.owned)
    (howned : ∀ y ∈ x.owned, w.heap.Knows y ∧
      ∀ n, w.heap.count? y = some n → 0 < n ∧ n + x.owned.count y < 2 ^ 32)
    (hmoved : ∃ y, w'.heap.scope? ⟨w.heap.scopes.size⟩ = some y ∧ y.refs = 1 ∧ y.dead = false ∧
      y.parent = x.parent ∧ y.bindings = x.bindings)
    (hshifts : ∀ y, w.heap.Knows y →
      w.heap.ShiftsAt w'.heap (UInt32.ofNat (x.owned.count y)) y) :
    w.heap.Adopts (w'.releaseScope (some id)).heap id x ⟨w.heap.scopes.size⟩ := by
  have hlt := Heap.lt_size_of_scope? hx
  have hne : Handle.scope ⟨w.heap.scopes.size⟩ ≠ .scope id := by
    rintro ⟨rfl⟩
    exact lt_irrefl _ hlt
  have hnew : Handle.scope ⟨w.heap.scopes.size⟩ ∉ x.owned := fun hmem =>
    absurd (howned _ hmem).1 (lt_irrefl _)
  -- the old scope does not own itself, so that it has no new owner in the copy
  have hid : w'.heap.scope? id = some x := by
    have hshift := hshifts (.scope id) hlt
    rw [List.count_eq_zero.2 hself] at hshift
    exact (Heap.shiftsAt_zero.1 hshift).scope?_eq.trans hx
  have hfresh : w.heap.scope? ⟨w.heap.scopes.size⟩ = none := Heap.scope?_eq_none_iff.2 (le_refl _)
  by_cases h1 : x.refs = 1
  · have hspare : ∀ y ∈ x.owned, y ≠ .scope id ∧
        ∀ n, w'.heap.count? y = some n → x.owned.count y < n := fun y hy => by
      obtain ⟨hk, hcount⟩ := howned y hy
      refine ⟨fun he => hself (he ▸ hy), fun n hn => ?_⟩
      rw [(hshifts y hk).count?_eq, Option.map_eq_some_iff] at hn
      obtain ⟨m, hm, rfl⟩ := hn
      obtain ⟨hpos, hroom⟩ := hcount m hm
      rw [UInt32.toNat_ofNat']
      omega
    obtain ⟨hdestroyed, hrest⟩ := release_last hw hid hd h1 hspare
    refine ⟨hfresh, ?_, fun _ => ⟨hdestroyed, fun y hk hy => ?_⟩, fun h => absurd h1 h⟩
    · have hsame := hrest _ hne
      rw [List.count_eq_zero.2 hnew, Heap.shiftsAt_neg_zero] at hsame
      obtain ⟨y, hy, hmoved⟩ := hmoved
      exact ⟨y, hsame.scope?_eq.trans hy, hmoved⟩
    · -- the owners that came with the copy make up for those that are gone with the old scope
      have := (hshifts y hk).trans (hrest y hy)
      rwa [UInt32.add_right_neg, Heap.shiftsAt_zero] at this
  · obtain ⟨hless, hrest⟩ := release_shared hw hid (by
      have : x.refs.toNat ≠ 1 := fun he => h1 (UInt32.toNat_inj.1 he)
      omega)
    refine ⟨hfresh, ?_, fun h => absurd h h1, fun _ => ⟨hless, fun y hk hy => ?_⟩⟩
    · obtain ⟨y, hy, hmoved⟩ := hmoved
      exact ⟨y, (hrest _ hne).scope?_eq.trans hy, hmoved⟩
    · exact (hshifts y hk).trans_same (hrest y hy)

/-- **Moving a scope loses nothing and destroys nothing else.** In a world whose counts are exact,
a living scope of which the caller owns a reference is moved. The counts are exact again if the
caller owns the new scope in its place, and every name that is looked up from there has the value
that it had from the old one. Counts are not at their maximum, so that there is room for one more
owner for each place in the scope. -/
theorem adopt_exact {C : Share} (hexact : w.Exact (Share.scope (some id) + C))
    (hl : w.heap.Lineal) (hx : w.heap.scope? id = some x)
    (hroom : ∀ y ∈ x.owned, ∀ n, w.heap.count? y = some n → n + x.owned.count y < 2 ^ 32) :
    ∃ moved w', adopt (some id) w = .ok moved w' ∧ w'.Exact (Share.scope (some moved) + C) ∧
      w.heap.Adopts w'.heap id x moved ∧
      ∀ name, ∃ r, lookup (some id) name w = Run.ofExcept r w ∧
        lookup (some moved) name w' = Run.ofExcept r w' := by
  have ha := hexact.accounts
  have hd : x.dead = false := by
    obtain ⟨x', hx', hd⟩ := ha.lives_of_mem (x := .scope id) (by simp [Share.scope_some])
    rw [hx, Option.some.injEq] at hx'
    rwa [hx']
  have hlives : ∀ y ∈ x.owned, w.heap.Lives y := fun y hy => ha.lives_of_scope hx hd hy
  obtain ⟨w₁, w₂, y, hmake, happend, hy, hmoved, hpasses, hshifts⟩ := copy_raises hexact.reclaim
    (x := x) fun y hy => ⟨hlives y hy, by simpa using hroom y hy⟩
  have hadopt : adopt (some id) w = .ok ⟨w.heap.scopes.size⟩ (w₂.releaseScope (some id)) := by
    unfold adopt
    rw [bind_ok (expect_of_lives "adopt" hx hd)]
    dsimp only
    rw [bind_ok hmake, bind_ok happend]
    rfl
  have hadopts : w.heap.Adopts (w₂.releaseScope (some id)).heap id x ⟨w.heap.scopes.size⟩ := by
    refine adopts_releaseScope (hpasses.reclaim.trans hexact.reclaim) hx hd ?_ ?_ (fun z hz => ?_)
      ⟨y, hy, hmoved⟩ hshifts
    · rw [ha.scope_count hx, Multiset.count_add, Share.scope_some, Multiset.count_singleton_self]
      omega
    · -- the scope around it has a smaller number
      rw [← Multiset.mem_coe, coe_owned, Multiset.mem_add]
      rintro (hmem | hmem)
      · obtain ⟨q, hq, hqid⟩ := List.mem_map.1 hmem
        cases hqid
        exact absurd (hl.parent hx (Option.mem_toList.1 hq)).1 (lt_irrefl _)
      · exact Share.scope_notMem_refs id _ hmem
    · refine ⟨(hlives z hz).knows, fun n hn => ⟨?_, hroom z hz n hn⟩⟩
      have := Heap.owners_pos_of_scope hx (x := z) (by rw [held, hd]; exact hz)
      rw [ha.count z n hn]
      omega
  refine ⟨_, _, hadopt, ?_, hadopts, lookup_of_adopts hadopts hl hx hd⟩
  have hcopied := hpasses.exact (C := Share.scope (some id) + C) (by rwa [zero_add])
  rw [add_left_comm] at hcopied
  have hdrop := World.Passes.drop hcopied.reclaim (Handle.ofScope (some id))
  have := hdrop.exact hcopied
  rwa [zero_add] at this

/-- A scope that is the only owner of the scope around it and binds two names to one object. -/
def nestedScope : List Client.Call :=
  [.scope none, .scope (some ⟨0⟩), .releaseScope (some ⟨0⟩), .constant (.integer 5),
    .bind (some ⟨1⟩) "x" (some ⟨1⟩), .bind (some ⟨1⟩) "y" (some ⟨1⟩), .release (some ⟨1⟩)]

/-- A function that was made in the scope is bound there, too, so that the scope owns what owns
it. -/
def nestedScopeWithFunction : List Client.Call :=
  nestedScope ++
    [.function [] false [] (some ⟨1⟩), .bind (some ⟨1⟩) "f" (some ⟨2⟩), .release (some ⟨2⟩)]

/-- Whether the scope, which has `n` owners, is all that the client owns, and has room. -/
def holdsScope (n : UInt32) (s : Client.Holdings) : Bool :=
  decide (s.owned = Share.scope (some ⟨1⟩) ∧ s.world.conduct = {}) &&
    (s.world.heap.scope? ⟨1⟩).any fun x => x.refs = n && x.owned.all fun y =>
      (s.world.heap.count? y).all fun n => n + x.owned.count y < 2 ^ 32

/-- Moving the scope on behalf of its last owner, and while the function is an owner besides. -/
theorem adopt_exact_nestedScope : ∃ (s t : Client.Holdings) (x y : Scope) (m n : ScopeId)
    (v w : World), Client.Holdings.afterAll .none ⟨0, {}⟩ nestedScope = some s ∧
    s.world.heap.scope? ⟨1⟩ = some x ∧ x.refs = 1 ∧ adopt (some ⟨1⟩) s.world = .ok m v ∧
    v.Exact (Share.scope (some m)) ∧ s.world.heap.Adopts v.heap ⟨1⟩ x m ∧
    Client.Holdings.afterAll .none ⟨0, {}⟩ nestedScopeWithFunction = some t ∧
    t.world.heap.scope? ⟨1⟩ = some y ∧ y.refs = 2 ∧ adopt (some ⟨1⟩) t.world = .ok n w ∧
    w.Exact (Share.scope (some n)) ∧ t.world.heap.Adopts w.heap ⟨1⟩ y n := by
  have hmoves : ∀ k calls,
      (Client.Holdings.afterAll .none ⟨0, {}⟩ calls).any (holdsScope k) = true →
      ∃ s x m v, Client.Holdings.afterAll .none ⟨0, {}⟩ calls = some s ∧
        s.world.heap.scope? ⟨1⟩ = some x ∧ x.refs = k ∧ adopt (some ⟨1⟩) s.world = .ok m v ∧
        v.Exact (Share.scope (some m)) ∧ s.world.heap.Adopts v.heap ⟨1⟩ x m := by
    intro k calls hany
    obtain ⟨s, hrun, hs⟩ := (Option.any_eq_true _ _).1 hany
    obtain ⟨hholds, hscope⟩ := Bool.and_eq_true_iff.1 hs
    obtain ⟨howned, hc⟩ := of_decide_eq_true hholds
    obtain ⟨x, hx, hroom⟩ := (Option.any_eq_true _ _).1 hscope
    simp only [Bool.and_eq_true, decide_eq_true_eq, List.all_eq_true, Option.all_eq_true] at hroom
    obtain ⟨hexact, hl⟩ := Client.Holdings.exact_afterAll hrun hc
    rw [howned, ← add_zero (Share.scope _)] at hexact
    obtain ⟨m, v, hadopt, hexact', hadopts, -⟩ := adopt_exact hexact hl hx hroom.2
    exact ⟨s, x, m, v, hrun, hx, hroom.1, hadopt, by rwa [add_zero] at hexact', hadopts⟩
  have hruns : (Client.Holdings.afterAll .none ⟨0, {}⟩ nestedScope).any (holdsScope 1) = true ∧
      (Client.Holdings.afterAll .none ⟨0, {}⟩ nestedScopeWithFunction).any (holdsScope 2) =
        true := by
    decide +kernel
  obtain ⟨s, x, m, v, hsingle⟩ := hmoves _ _ hruns.1
  obtain ⟨t, y, n, w, hshared⟩ := hmoves _ _ hruns.2
  obtain ⟨hs, hx, hrefs, hadopt, hexact, hadopts⟩ := hsingle
  exact ⟨s, t, x, y, m, n, v, w, hs, hx, hrefs, hadopt, hexact, hadopts, hshared⟩

/-- There is no room for another owner of the first value, so that moving the scope breaks off. -/
theorem adopt_of_full {name : Text} {value : Ref} {rest : List (Text × Ref)}
    (hw : w.reclaim = true) (hx : w.heap.scope? id = some x) (hd : x.dead = false)
    (hparent : ∀ q, x.parent = some q → w.heap.Lives (.scope q))
    (hbindings : x.bindings = (name, value) :: rest)
    (hv : ∀ v, value = some v → w.heap.Lives (.object v)) (hfull : w.heap.Full value) :
    ∃ w', adopt (some id) w = .error (.breach Object.overflowBreach.text) w' := by
  obtain ⟨s, w₁, hmake, hw₁⟩ := make_of_lives hparent
  rw [hw] at hw₁
  -- the new scope changes no object, so that the value is as full as before
  have hobject := make_object? hmake
  have hretain : Object.retain value w₁ = .error (.breach Object.overflowBreach.text) w₁ := by
    refine Object.retain_of_full hw₁ (fun v hvalue => ?_) ?_
    · obtain ⟨o, ho, hod⟩ := hv v hvalue
      exact ⟨o, (hobject v).trans ho, hod⟩
    · obtain ⟨v, o, hvalue, ho, hi, hmax⟩ := hfull
      exact ⟨v, o, hvalue, (hobject v).trans ho, hi, hmax⟩
  refine ⟨w₁, ?_⟩
  unfold adopt
  rw [bind_ok (expect_of_lives "adopt" hx hd)]
  dsimp only
  rw [bind_ok hmake, hbindings, appendAll]
  exact bind_error (bind_error hretain)

/-- A scope inside of another one, with one name. The client owns both and the value. -/
def oneBinding : List Client.Call :=
  [.scope none, .scope (some ⟨0⟩), .constant (.integer 7), .bind (some ⟨1⟩) "x" (some ⟨1⟩)]

/-- Whether the client owns the scope, in which one name is bound to a counted value. -/
def bindsOnce (s : Client.Holdings) : Bool :=
  decide (.scope ⟨1⟩ ∈ s.owned ∧ s.world.conduct = {}) &&
    ((s.world.heap.scope? ⟨1⟩).any fun x =>
      !x.dead && decide (x.bindings = [(Text.ofString "x", some ⟨1⟩)])) &&
    (s.world.heap.object? ⟨1⟩).any fun o => !o.dead && !o.payload.isImmortal && o.refs == 2

/-- If a value has as many owners as can be counted, the scope is not moved: the attempt breaks off
at this value. -/
theorem adopt_exact_full : ∃ (C : Share) (w w' : World) (x : Scope),
    w.Exact (Share.scope (some ⟨1⟩) + C) ∧ w.heap.Lineal ∧ w.heap.scope? ⟨1⟩ = some x ∧
    x.bindings = [(Text.ofString "x", some ⟨1⟩)] ∧ w.heap.count? (.object ⟨1⟩) = some 4294967295 ∧
    adopt (some ⟨1⟩) w = .error (.breach Object.overflowBreach.text) w' := by
  have hrun : (Client.Holdings.afterAll .none ⟨0, {}⟩ oneBinding).any bindsOnce = true := by
    decide +kernel
  obtain ⟨s, hs, hbinds⟩ := (Option.any_eq_true _ _).1 hrun
  simp only [bindsOnce, Bool.and_eq_true, decide_eq_true_eq, Option.any_eq_true,
    Bool.not_eq_true', beq_iff_eq] at hbinds
  obtain ⟨⟨⟨howned, hc⟩, x, hx, hd, hbindings⟩, o, ho, ⟨hod, hi⟩, hrefs⟩ := hbinds
  obtain ⟨hexact, hl⟩ := Client.Holdings.exact_afterAll hs hc
  obtain ⟨C, hC⟩ := Multiset.exists_cons_of_mem howned
  -- the number of owners stays a variable until the count is known
  obtain ⟨n, hn⟩ : ∃ n, n = 4294967293 := ⟨_, rfl⟩
  have hmax : o.refs + UInt32.ofNat n = maxCount := by
    rw [hrefs, hn]
    decide
  let o' : Object := { o with refs := o.refs + UInt32.ofNat n }
  let u : World := { s.world with heap := s.world.heap.setObject ⟨1⟩ o' }
  have hexact' : u.Exact (Multiset.replicate n (.object ⟨1⟩) + s.owned) :=
    hexact.retainObject ho hod (by rw [hrefs, hn]; decide)
  have hself : u.heap.object? ⟨1⟩ = some o' := Heap.object?_setObject_self o' ho
  have hx' : u.heap.scope? ⟨1⟩ = some x := hx
  have hparent : ∀ q, x.parent = some q → u.heap.Lives (.scope q) := fun q hq =>
    hexact'.accounts.lives_of_scope hx' hd (by simp [owned, Handle.ofScope, hq])
  have hvalue : ∀ v, some (⟨1⟩ : ObjectId) = some v → u.heap.Lives (.object v) := fun v hv => by
    cases hv
    exact ⟨o', hself, hod⟩
  obtain ⟨w', hadopt⟩ := adopt_of_full hexact'.reclaim hx' hd hparent hbindings hvalue
    ⟨⟨1⟩, o', rfl, hself, hi, hmax⟩
  refine ⟨Multiset.replicate n (.object ⟨1⟩) + C, u, w', x, ?_, ⟨hl.parent⟩, hx', hbindings, ?_,
    hadopt⟩
  · rw [Share.scope_some, Multiset.singleton_add, ← Multiset.add_cons, ← hC]
    exact hexact'
  · simp [Heap.count?, hself, o', hi, hmax, maxCount]

end Scope

end CountedLisp
