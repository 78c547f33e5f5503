import CountedLisp.World
import CountedLisp.Proofs.Release

/-!
# The order in which references are given up

Giving up a reference may destroy what it points to, and with it much else. Nevertheless the order
in which references are given up makes no difference to what is left.

One step looks at the object or scope that its reference points to and changes nothing but this and
the registry that keeps track of it. `object?_dropOne`, `scope?_dropOne` and `registries_dropOne`
say what a step leaves in each place of the heap. So two steps can be exchanged
(`heap_dropOne_comm`), and what they free is the same either way (`dropOne_congr`).

A list of references and any rearrangement of it thus lead to the same heap, by induction on the
number of references in the list and in the heap (`drop_perm`). The destructions are the same, too,
in another order.
-/

namespace CountedLisp

/-! ### What a step does to its target -/

/-- An object of which one reference has been given up. -/
def Object.lessened (o : Object) : Object :=
  if o.payload.isImmortal || o.refs = 0 then o
  else if o.refs = 1 then o.destroyed
  else { o with refs := o.refs - 1 }

/-- Whether a scope is destroyed when one reference to it is given up. -/
def Scope.isLast (s : Scope) : Bool :=
  s.refs = 1 && !s.dead

/-- A scope of which one reference has been given up. -/
def Scope.lessened (s : Scope) : Scope :=
  if s.refs = 0 then s
  else if s.isLast then s.destroyed
  else { s with refs := s.refs - 1 }

namespace Heap

/-- What giving up a reference does to the registry with the given number. -/
def erasure (h : Heap) (x : Handle) (i : Nat) (r : Registry) : Registry :=
  match x with
  | .object _ => r
  | .scope id =>
    match h.scope? id with
    | none => r
    | some s => if s.isLast && s.registry = some ⟨i⟩ then r.erase s.serial else r

/-- Two heaps are the same if they have the same in each place. -/
theorem ext_places {h k : Heap} (ho : ∀ id, h.object? id = k.object? id)
    (hs : ∀ id, h.scope? id = k.scope? id) (hr : ∀ i : Nat, h.registries[i]? = k.registries[i]?)
    (hn : h.serial = k.serial) : h = k := by
  obtain ⟨objects, scopes, registries, serial⟩ := h
  obtain ⟨objects', scopes', registries', serial'⟩ := k
  have h1 : objects = objects' := Array.ext_getElem? fun i => ho ⟨i⟩
  have h2 : scopes = scopes' := Array.ext_getElem? fun i => hs ⟨i⟩
  have h3 : registries = registries' := Array.ext_getElem? hr
  rw [h1, h2, h3]
  exact congrArg _ hn

theorem setObject_same {h : Heap} {id : ObjectId} {o : Object} (ho : h.object? id = some o) :
    h.setObject id o = h := by
  refine ext_places (fun id' => ?_) (fun _ => rfl) (fun _ => rfl) rfl
  by_cases hid : id' = id
  · rw [hid, object?_setObject_self o ho, ho]
  · exact object?_setObject_ne o hid

theorem setScope_same {h : Heap} {id : ScopeId} {s : Scope} (hs : h.scope? id = some s) :
    h.setScope id s = h := by
  refine ext_places (fun _ => rfl) (fun id' => ?_) (fun _ => rfl) rfl
  by_cases hid : id' = id
  · rw [hid, scope?_setScope_self s hs, hs]
  · exact scope?_setScope_ne s hid

theorem dropScope_eq {h : Heap} {id : ScopeId} {s : Scope} (hs : h.scope? id = some s) :
    (h.dropScope id).heap =
      (h.setScope id s.lessened).updateRegistry (if s.isLast then s.registry else none)
        (Registry.erase s.serial) := by
  unfold dropScope Scope.lessened Scope.isLast
  rw [hs]
  by_cases h0 : s.refs = 0
  · simp [h0, setScope_same hs, updateRegistry]
  · by_cases h1 : s.refs = 1
    · cases hd : s.dead
      · simp [h1, hd, destroyScope, setScope_setScope, Scope.destroyed]
      · simp [h1, hd, destroyScope, updateRegistry]
    · simp [h0, h1, updateRegistry]

/-- A step changes no object but the one that its reference points to. -/
theorem object?_dropOne (h : Heap) (x : Handle) (id : ObjectId) :
    (h.dropOne x).heap.object? id =
      if x = .object id then (h.object? id).map Object.lessened else h.object? id := by
  cases x with
  | scope s =>
    show (h.dropScope s).heap.object? id = _
    cases hs : h.scope? s with
    | none => simp [dropScope, hs]
    | some y => simp [dropScope_eq hs]
  | object id' =>
    show (h.dropObject id').heap.object? id = _
    by_cases hid : id = id'
    · subst hid
      cases ho : h.object? id with
      | none => simp [dropObject, ho]
      | some o =>
        simp only [dropObject, ho, Object.lessened, if_true, Option.map_some]
        split_ifs
        · exact ho
        · exact object?_setObject_self _ ho
        · exact object?_setObject_self _ ho
    · rw [if_neg fun he => hid (by cases he; rfl)]
      unfold dropObject
      split
      · rfl
      · split_ifs
        · rfl
        · exact object?_setObject_ne _ hid
        · exact object?_setObject_ne _ hid

/-- A step changes no scope but the one that its reference points to. -/
theorem scope?_dropOne (h : Heap) (x : Handle) (id : ScopeId) :
    (h.dropOne x).heap.scope? id =
      if x = .scope id then (h.scope? id).map Scope.lessened else h.scope? id := by
  cases x with
  | object o =>
    show (h.dropObject o).heap.scope? id = _
    unfold dropObject
    split
    · simp
    · split_ifs <;> simp_all
  | scope id' =>
    show (h.dropScope id').heap.scope? id = _
    by_cases hid : id = id'
    · subst hid
      cases hs : h.scope? id with
      | none => simp [dropScope, hs]
      | some s => simp [dropScope_eq hs, scope?_setScope_self _ hs]
    · rw [if_neg fun he => hid (by cases he; rfl)]
      cases hs : h.scope? id' with
      | none => simp [dropScope, hs]
      | some s => simp [dropScope_eq hs, scope?_setScope_ne _ hid]

/-- A step takes nothing out of a registry but the scope that its reference points to. -/
theorem registries_dropOne (h : Heap) (x : Handle) (i : Nat) :
    (h.dropOne x).heap.registries[i]? = (h.registries[i]?).map (h.erasure x i) := by
  cases x with
  | object o =>
    show (h.dropObject o).heap.registries[i]? = (h.registries[i]?).map fun r => r
    rw [Option.map_id']
    unfold dropObject
    split
    · rfl
    · split_ifs <;> rfl
  | scope id =>
    show (h.dropScope id).heap.registries[i]? = _
    cases hs : h.scope? id with
    | none =>
      have hsame : h.erasure (.scope id) i = fun r => r := by
        funext r
        simp [erasure, hs]
      simp [dropScope, hs, hsame]
    | some s =>
      have herase : h.erasure (.scope id) i = fun r =>
          if s.isLast && s.registry = some ⟨i⟩ then r.erase s.serial else r := by
        funext r
        simp only [erasure, hs]
      rw [dropScope_eq hs, herase]
      -- the last reference takes the scope out of its own registry, if it has one
      cases hl : s.isLast with
      | false => simp [updateRegistry, setScope]
      | true =>
        cases hr : s.registry with
        | none => simp [updateRegistry, setScope]
        | some r =>
          simp only [if_true, updateRegistry, setScope, Array.getElem?_modify]
          by_cases hi : r.index = i
          · obtain ⟨j⟩ := r
            subst hi
            simp
          · have hne : r ≠ ⟨i⟩ := fun he => hi (by rw [he])
            simp [hi, hne]

theorem serial_dropOne (h : Heap) (x : Handle) : (h.dropOne x).heap.serial = h.serial :=
  (drops_dropOne h x).fades.serial

/-! ### Two steps -/

/-- What a step frees and destroys depends on the target of its reference only. -/
theorem dropOne_congr {h k : Heap} {x : Handle}
    (ho : ∀ id, x = .object id → k.object? id = h.object? id)
    (hs : ∀ id, x = .scope id → k.scope? id = h.scope? id) :
    (k.dropOne x).freed = (h.dropOne x).freed ∧ (k.dropOne x).demise = (h.dropOne x).demise := by
  cases x with
  | object id =>
    simp only [dropOne, dropObject, ho id rfl]
    split
    · simp
    · split_ifs <;> simp
  | scope id =>
    simp only [dropOne, dropScope, hs id rfl]
    split
    · simp
    · unfold destroyScope
      split_ifs <;> simp

/-- What a step frees and destroys is the same after a step with another target. -/
theorem dropOne_of_ne (h : Heap) {x y : Handle} (hxy : x ≠ y) :
    ((h.dropOne x).heap.dropOne y).freed = (h.dropOne y).freed ∧
      ((h.dropOne x).heap.dropOne y).demise = (h.dropOne y).demise := by
  apply dropOne_congr
  · rintro id rfl
    rw [object?_dropOne, if_neg hxy]
  · rintro id rfl
    rw [scope?_dropOne, if_neg hxy]

theorem erasure_of_ne (h : Heap) {x y : Handle} (hxy : x ≠ y) (i : Nat) :
    (h.dropOne x).heap.erasure y i = h.erasure y i := by
  cases y with
  | object o => rfl
  | scope id =>
    funext r
    simp only [erasure, scope?_dropOne, if_neg hxy]

/-- Taking scopes out of a registry can be done in any order. -/
theorem erasure_comm (h : Heap) (x y : Handle) (i : Nat) (r : Registry) :
    h.erasure x i (h.erasure y i r) = h.erasure y i (h.erasure x i r) := by
  have hkeep : ∀ z, (∀ r, h.erasure z i r = r) ∨
      ∃ n, ∀ r : Registry, h.erasure z i r = r.erase n := by
    intro z
    cases z with
    | object o => exact .inl fun _ => rfl
    | scope id =>
      cases hs : h.scope? id with
      | none => exact .inl fun r => by simp [erasure, hs]
      | some s =>
        by_cases hl : (s.isLast && s.registry = some ⟨i⟩) = true
        · exact .inr ⟨s.serial, fun r => by simp [erasure, hs, hl]⟩
        · exact .inl fun r => by simp [erasure, hs, hl]
  rcases hkeep x with hx | ⟨m, hx⟩
  · rw [hx, hx]
  · rcases hkeep y with hy | ⟨n, hy⟩
    · rw [hy, hy]
    · rw [hx, hy, hy, hx]
      exact List.filter_comm _ _ r

/-- **Two steps can be exchanged.** -/
theorem heap_dropOne_comm (h : Heap) (x y : Handle) :
    ((h.dropOne x).heap.dropOne y).heap = ((h.dropOne y).heap.dropOne x).heap := by
  by_cases hxy : x = y
  · rw [hxy]
  · refine ext_places (fun id => ?_) (fun id => ?_) (fun i => ?_) ?_
    · -- no object is the target of both
      simp only [object?_dropOne]
      by_cases hx : x = .object id
      · have hy : y ≠ .object id := fun hy => hxy (hx.trans hy.symm)
        simp [hx, hy]
      · simp [hx]
    · simp only [scope?_dropOne]
      by_cases hx : x = .scope id
      · have hy : y ≠ .scope id := fun hy => hxy (hx.trans hy.symm)
        simp [hx, hy]
      · simp [hx]
    · simp only [registries_dropOne, erasure_of_ne h hxy, erasure_of_ne h (Ne.symm hxy),
        Option.map_map]
      congr 1
      funext r
      exact erasure_comm h y x i r
    · simp only [serial_dropOne]

/-! ### All steps -/

theorem drop_cons (h : Heap) (died : Array Demise) (x : Handle) (rest : List Handle) :
    h.drop died (x :: rest) =
      (h.dropOne x).heap.drop (died ++ (h.dropOne x).demise.toArray)
        ((h.dropOne x).freed ++ rest) := by
  rw [drop]

/-- Each step makes the list and what the heap owns smaller, taken together. -/
theorem measure_dropOne (h : Heap) (x : Handle) (rest : List Handle) :
    ((h.dropOne x).freed ++ rest).length + (h.dropOne x).heap.ownedCount <
      (x :: rest).length + h.ownedCount := by
  have := freed_dropOne h x
  simp only [List.length_append, List.length_cons]
  omega

/-- **The order makes no difference**: references that are given up in another order leave the same
heap, and the same is destroyed on the way. -/
theorem drop_perm {h : Heap} {died died' : Array Demise} {work work' : List Handle}
    (hd : died.toList.Perm died'.toList) (hw : work.Perm work') :
    (h.drop died work).1 = (h.drop died' work').1 ∧
      (h.drop died work).2.toList.Perm (h.drop died' work').2.toList := by
  generalize hn : work.length + h.ownedCount = n
  induction n using Nat.strong_induction_on generalizing h died died' work work' with
  | _ n ih =>
  cases work with
  | nil =>
    obtain rfl := hw.nil_eq
    simpa [drop] using hd
  | cons x rest =>
    cases work' with
    | nil => exact absurd hw.eq_nil (List.cons_ne_nil x rest)
    | cons y rest' =>
      have hn' : (y :: rest').length + h.ownedCount = n := hw.length_eq ▸ hn
      by_cases hxy : x = y
      · subst hxy
        rw [drop_cons, drop_cons]
        apply ih _ (hn ▸ measure_dropOne h x rest)
        · simpa using hd.append_right _
        · exact hw.cons_inv.append_left _
        · rfl
      · -- either list holds both references: take them in one order from the first, in the other
        -- from the second
        have hy : y ∈ rest := by
          have := hw.mem_iff.mpr (List.mem_cons_self (a := y))
          exact (List.mem_cons.mp this).resolve_left (Ne.symm hxy)
        have hrest : rest.Perm (y :: rest.erase y) := List.perm_cons_erase hy
        have hrest' : rest'.Perm (x :: rest.erase y) :=
          (hw.symm.trans ((hrest.cons x).trans (.swap y x _))).cons_inv
        have hmove : ((h.dropOne x).freed ++ rest).Perm
            (y :: ((h.dropOne x).freed ++ rest.erase y)) :=
          (hrest.append_left _).trans List.perm_middle
        have hmove' : ((h.dropOne y).freed ++ rest').Perm
            (x :: ((h.dropOne y).freed ++ rest.erase y)) :=
          (hrest'.append_left _).trans List.perm_middle
        have hless := hn ▸ measure_dropOne h x rest
        have hless' := measure_dropOne (h.dropOne x).heap y ((h.dropOne x).freed ++ rest.erase y)
        obtain ⟨hheap, hdied⟩ := ih _ hless
          (.refl (died ++ (h.dropOne x).demise.toArray).toList) hmove rfl
        obtain ⟨hheap', hdied'⟩ := ih _ (hn' ▸ measure_dropOne h y rest')
          (.refl (died' ++ (h.dropOne y).demise.toArray).toList) hmove' rfl
        obtain ⟨hfx, hdx⟩ := dropOne_of_ne h (Ne.symm hxy)
        obtain ⟨hfy, hdy⟩ := dropOne_of_ne h hxy
        rw [drop_cons, hfy, hdy] at hheap hdied
        rw [drop_cons, hfx, hdx, ← heap_dropOne_comm] at hheap' hdied'
        rw [hfy] at hless'
        -- from here on the heaps are the same and the lists are rearrangements again
        have hless'' : ((h.dropOne y).freed ++ ((h.dropOne x).freed ++ rest.erase y)).length +
            ((h.dropOne x).heap.dropOne y).heap.ownedCount < n := by
          have := hmove.length_eq
          omega
        have hd' :
            (died ++ (h.dropOne x).demise.toArray ++ (h.dropOne y).demise.toArray).toList.Perm
            (died' ++ (h.dropOne y).demise.toArray ++ (h.dropOne x).demise.toArray).toList := by
          simp only [Array.toList_append, List.append_assoc]
          exact hd.append List.perm_append_comm
        have hw' : ((h.dropOne y).freed ++ ((h.dropOne x).freed ++ rest.erase y)).Perm
            ((h.dropOne x).freed ++ ((h.dropOne y).freed ++ rest.erase y)) := by
          rw [← List.append_assoc, ← List.append_assoc]
          exact List.perm_append_comm.append_right _
        obtain ⟨hlast, hdied''⟩ := ih _ hless'' hd' hw' rfl
        rw [drop_cons, drop_cons, hheap, hheap']
        exact ⟨hlast, hdied.trans (hdied''.trans hdied'.symm)⟩

/-- Giving up references one list after the other is giving them up in one go. -/
theorem drop_append (h : Heap) (died : Array Demise) (work more : List Handle) :
    h.drop died (work ++ more) = (h.drop died work).1.drop (h.drop died work).2 more := by
  fun_induction drop h died work with
  | case1 => rfl
  | case2 h died x rest step ih =>
    rw [List.cons_append, drop_cons, ← List.append_assoc]
    exact ih

/-- What was destroyed before is told before the rest. -/
theorem drop_died (h : Heap) (died before : Array Demise) (work : List Handle) :
    h.drop (before ++ died) work = ((h.drop died work).1, before ++ (h.drop died work).2) := by
  fun_induction drop h died work with
  | case1 => rw [drop]
  | case2 h died x rest step ih =>
    rw [drop_cons, Array.append_assoc]
    exact ih

end Heap

namespace World

theorem drop_drop (w : World) (xs ys : List Handle) : (w.drop xs).drop ys = w.drop (xs ++ ys) := by
  unfold drop
  cases hr : w.reclaim with
  | false => simp [hr]
  | true =>
    have hdied := Heap.drop_died (w.heap.drop #[] xs).1 #[] (w.heap.drop #[] xs).2 ys
    rw [Array.append_empty] at hdied
    rw [Heap.drop_append, hdied]
    cases w.traceRefs <;> simp

/-- References that are given up in another order leave the same world but for the order of the
entries in the log. -/
theorem drop_perm (w : World) {xs ys : List Handle} (h : xs.Perm ys) :
    w.drop ys = { w.drop xs with log := (w.drop ys).log } ∧
      (w.drop xs).log.toList.Perm (w.drop ys).log.toList := by
  obtain ⟨hheap, hdied⟩ := Heap.drop_perm (h := w.heap) (.refl (#[] : Array Demise).toList) h
  unfold drop
  cases w.reclaim with
  | false => exact ⟨rfl, .refl _⟩
  | true =>
    rw [if_pos rfl, if_pos rfl]
    constructor
    · simp only [hheap]
    · cases w.traceRefs with
      | false => exact .refl _
      | true => simpa using (hdied.map Demise.event).append_left w.log.toList

/-- The world after giving up a reference to an object or a scope. -/
def releaseHandle (x : Handle) (w : World) : World :=
  match x with
  | .object id => w.release (some id)
  | .scope id => w.releaseScope (some id)

theorem releaseHandle_eq_drop (x : Handle) (w : World) : w.releaseHandle x = w.drop [x] := by
  cases x <;> rfl

/-- **Releases commute**: whatever the heap is, two references can be given up in either order. All
is the same afterwards but for the order of the entries in the log. -/
theorem release_comm (w : World) (x y : Handle) :
    (w.releaseHandle y).releaseHandle x =
        { (w.releaseHandle x).releaseHandle y with
          log := ((w.releaseHandle y).releaseHandle x).log } ∧
      ((w.releaseHandle x).releaseHandle y).log.toList.Perm
        ((w.releaseHandle y).releaseHandle x).log.toList := by
  simp only [releaseHandle_eq_drop, drop_drop]
  exact drop_perm w (.swap y x [])

end World

end CountedLisp
