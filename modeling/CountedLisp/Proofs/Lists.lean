import CountedLisp.Proofs.Confluence
import CountedLisp.Proofs.Store

/-!
# New lists

`Pair.makeList` gives every item of the new list one more owner for each place that it has in the
list, and adds one pair for each place, from the end of the list on. `Heap.raise` is the heap with
the new owners, `Heap.extend` the heap with more objects, and `Pair.link` are the pairs, for a heap
of a given size. If all items live and their counts do not pass the maximum, these three describe
the heap with the new list exactly (`makeList_eq`).

Whoever owned the items before and needs only the list gives them up afterwards. This takes back the
new owners and destroys nothing (`drop_raise`), so what is left is the old heap with the pairs
(`makeList_ensuring_eq`).
-/

namespace CountedLisp

/-! ### More owners -/

namespace Object

/-- An object with `n` more owners; the empty list is not counted. -/
def raised (n : Nat) (o : Object) : Object :=
  if o.payload.isImmortal then o else { o with refs := o.refs + UInt32.ofNat n }

/-- An object that lives and can get `n` more owners. -/
structure HasRoom (o : Object) (n : Nat) : Prop where
  alive : o.dead = false
  counted : 0 < o.refs.toNat
  room : o.refs.toNat + n ≤ maxCount.toNat

theorem raised_of_immortal {o : Object} (h : o.payload.isImmortal = true) (n : Nat) :
    o.raised n = o :=
  if_pos h

theorem raised_eq {o : Object} (h : o.payload.isImmortal = false) (n : Nat) :
    o.raised n = { o with refs := o.refs + UInt32.ofNat n } :=
  if_neg (by simp [h])

theorem raised_zero (o : Object) : o.raised 0 = o := by
  unfold raised
  split_ifs
  · rfl
  · simp

theorem payload_raised (o : Object) (n : Nat) : (o.raised n).payload = o.payload := by
  unfold raised
  split_ifs <;> rfl

theorem HasRoom.mono {o : Object} {n m : Nat} (h : o.HasRoom n) (hm : m ≤ n) : o.HasRoom m where
  alive := h.alive
  counted := h.counted
  room := Nat.le_trans (Nat.add_le_add_left hm _) h.room

theorem HasRoom.toNat_refs {o : Object} {n : Nat} (h : o.HasRoom n) :
    (o.refs + UInt32.ofNat n).toNat = o.refs.toNat + n := by
  have hroom : o.refs.toNat + n ≤ 4294967295 := h.room
  rw [UInt32.toNat_add, UInt32.toNat_ofNat']
  omega

end Object

namespace Heap

/-- The heap in which each object has one more owner for each of its places in a list. -/
def raise (h : Heap) (rs : List Ref) : Heap :=
  { h with objects := h.objects.mapIdx fun i o => o.raised (rs.count (some ⟨i⟩)) }

/-- All objects in a list are counted and can get one more owner for each of their places in it. -/
def HasRoom (h : Heap) (rs : List Ref) : Prop :=
  ∀ id, some id ∈ rs → ∃ o, h.object? id = some o ∧
    (o.payload.isImmortal = false → o.HasRoom (rs.count (some id)))

theorem HasRoom.tail {h : Heap} {r : Ref} {rs : List Ref} (hr : h.HasRoom (r :: rs)) :
    h.HasRoom rs := by
  intro id hid
  obtain ⟨o, ho, hroom⟩ := hr id (List.mem_cons_of_mem r hid)
  exact ⟨o, ho, fun hi => (hroom hi).mono List.count_le_count_cons⟩

@[simp] theorem object?_raise (h : Heap) (rs : List Ref) (id : ObjectId) :
    (h.raise rs).object? id = (h.object? id).map (Object.raised (rs.count (some id))) := by
  simp [raise, object?]

@[simp] theorem size_objects_raise (h : Heap) (rs : List Ref) :
    (h.raise rs).objects.size = h.objects.size := by
  simp [raise]

/-- Two lists in which each counted object has the same number of places. -/
theorem raise_congr {h : Heap} {rs rs' : List Ref}
    (hc : ∀ id o, h.object? id = some o → o.raised (rs.count (some id)) =
      o.raised (rs'.count (some id))) : h.raise rs = h.raise rs' := by
  refine ext_places (fun id => ?_) (fun _ => rfl) (fun _ => rfl) rfl
  rw [object?_raise, object?_raise]
  cases ho : h.object? id with
  | none => rfl
  | some o => exact congrArg some (hc id o ho)

theorem raise_nil (h : Heap) : h.raise [] = h := by
  refine ext_places (fun id => ?_) (fun _ => rfl) (fun _ => rfl) rfl
  rw [object?_raise, List.count_nil]
  cases h.object? id with
  | none => rfl
  | some o => exact congrArg some o.raised_zero

theorem raise_none (h : Heap) (rs : List Ref) : h.raise (none :: rs) = h.raise rs :=
  raise_congr fun id o _ => by rw [List.count_cons_of_ne (by simp)]

theorem raise_immortal {h : Heap} {id : ObjectId} {o : Object} (ho : h.object? id = some o)
    (hi : o.payload.isImmortal = true) (rs : List Ref) : h.raise (some id :: rs) = h.raise rs := by
  refine raise_congr fun id' o' ho' => ?_
  by_cases hid : id' = id
  · subst hid
    rw [ho] at ho'
    cases ho'
    rw [Object.raised_of_immortal hi, Object.raised_of_immortal hi]
  · rw [List.count_cons_of_ne (by simpa using fun he => hid he.symm)]

/-- A new owner for one more place. -/
theorem raise_cons {h : Heap} {id : ObjectId} {o : Object} (ho : h.object? id = some o)
    (hi : o.payload.isImmortal = false) (rs : List Ref) :
    (h.raise rs).setObject id
        { o.raised (rs.count (some id)) with refs := (o.raised (rs.count (some id))).refs + 1 } =
      h.raise (some id :: rs) := by
  refine ext_places (fun id' => ?_) (fun _ => rfl) (fun _ => rfl) rfl
  by_cases hid : id' = id
  · subst hid
    rw [object?_setObject_self _ (by rw [object?_raise, ho]; rfl), object?_raise, ho,
      List.count_cons_self]
    simp [Object.raised_eq hi, UInt32.ofNat_add, UInt32.add_assoc]
  · rw [object?_setObject_ne _ hid, object?_raise, object?_raise,
      List.count_cons_of_ne (by simpa using fun he => hid he.symm)]

/-! ### More objects -/

/-- The heap with more objects after its own. -/
def extend (h : Heap) (os : List Object) : Heap :=
  { h with objects := h.objects ++ os.toArray }

@[simp] theorem size_objects_extend (h : Heap) (os : List Object) :
    (h.extend os).objects.size = h.objects.size + os.length := by
  simp [extend]

theorem object?_extend_old {h : Heap} {id : ObjectId} (os : List Object)
    (hlt : id.index < h.objects.size) : (h.extend os).object? id = h.object? id := by
  simp [extend, object?, Array.getElem?_append_left hlt]

theorem object?_extend_of_some {h : Heap} {id : ObjectId} {o : Object} (os : List Object)
    (ho : h.object? id = some o) : (h.extend os).object? id = some o := by
  rw [object?_extend_old os (lt_size_of_object? ho), ho]

theorem object?_extend_new (h : Heap) (os : List Object) (i : Nat) :
    (h.extend os).object? ⟨h.objects.size + i⟩ = os[i]? := by
  simp [extend, object?, Array.getElem?_append_right]

theorem extend_nil (h : Heap) : h.extend [] = h := by
  simp [extend]

theorem extend_extend (h : Heap) (os os' : List Object) :
    (h.extend os).extend os' = h.extend (os ++ os') := by
  simp [extend]

theorem addObject_eq (h : Heap) (p : Payload) :
    h.addObject p = (⟨h.objects.size⟩, h.extend [Object.new p]) := by
  simp [addObject, extend]

theorem setObject_extend {h : Heap} {id : ObjectId} (o : Object) (os : List Object)
    (hlt : id.index < h.objects.size) :
    (h.extend os).setObject id o = (h.setObject id o).extend os := by
  simp [extend, setObject, Array.setIfInBounds_append_left hlt]

/-- An object of the heap, with its new owners. -/
theorem object?_extend_raise {h : Heap} {id : ObjectId} {o : Object} (ho : h.object? id = some o)
    (rs : List Ref) (os : List Object) :
    ((h.raise rs).extend os).object? id = some (o.raised (rs.count (some id))) := by
  apply object?_extend_of_some
  rw [object?_raise, ho, Option.map_some]

/-- A new owner for one more place, whatever was added to the heap. -/
theorem extend_raise_cons {h : Heap} {id : ObjectId} {o : Object} (ho : h.object? id = some o)
    (hi : o.payload.isImmortal = false) (rs : List Ref) (os : List Object) :
    (h.raise (some id :: rs)).extend os = ((h.raise rs).extend os).setObject id
      { o.raised (rs.count (some id)) with refs := (o.raised (rs.count (some id))).refs + 1 } := by
  have hlt : id.index < (h.raise rs).objects.size := by
    rw [size_objects_raise]
    exact lt_size_of_object? ho
  rw [setObject_extend _ _ hlt, raise_cons ho hi]

/-! ### Giving up the new owners -/

theorem setObject_restore {h : Heap} {id : ObjectId} {o : Object} (ho : h.object? id = some o)
    (o' : Object) : (h.setObject id o').setObject id o = h := by
  refine ext_places (fun id' => ?_) (fun _ => rfl) (fun _ => rfl) rfl
  by_cases hid : id' = id
  · rw [hid, object?_setObject_self o (object?_setObject_self o' ho), ho]
  · rw [object?_setObject_ne o hid, object?_setObject_ne o' hid]

/-- Giving up one of several owners takes back what giving it did. -/
theorem dropObject_retained {h : Heap} {id : ObjectId} {o : Object} (ho : h.object? id = some o)
    (hi : o.payload.isImmortal = false) (hpos : 0 < o.refs.toNat)
    (hmax : o.refs.toNat < maxCount.toNat) :
    (h.setObject id { o with refs := o.refs + 1 }).dropObject id = { heap := h } := by
  have hmax' : o.refs.toNat < 4294967295 := hmax
  have hrefs : (o.refs + 1).toNat = o.refs.toNat + 1 := by
    rw [UInt32.toNat_add, UInt32.toNat_one]
    omega
  have h0 : o.refs + 1 ≠ 0 := fun he => by rw [he, UInt32.toNat_zero] at hrefs; omega
  have h1 : o.refs + 1 ≠ 1 := fun he => by rw [he, UInt32.toNat_one] at hrefs; omega
  simp only [dropObject, object?_setObject_self _ ho, hi, h0, h1, Bool.false_or, decide_false,
    Bool.false_eq_true, if_false, UInt32.add_sub_cancel, setObject_restore ho]

/-- Giving up one of the new owners leaves the others. -/
theorem dropOne_raise {h : Heap} {id : ObjectId} {rs : List Ref} (os : List Object)
    (hr : h.HasRoom (some id :: rs)) :
    ((h.raise (some id :: rs)).extend os).dropOne (.object id) =
      { heap := (h.raise rs).extend os } := by
  obtain ⟨o, ho, hroom⟩ := hr id List.mem_cons_self
  have hraised := object?_extend_raise ho rs os
  show dropObject _ id = _
  by_cases hi : o.payload.isImmortal = true
  · rw [raise_immortal ho hi]
    simp [dropObject, hraised, Object.payload_raised, hi]
  · rw [Bool.not_eq_true] at hi
    have hroom := hroom hi
    rw [List.count_cons_self] at hroom
    have hrefs := (hroom.mono (Nat.le_succ _)).toNat_refs
    rw [extend_raise_cons ho hi]
    apply dropObject_retained hraised
    · rw [Object.payload_raised, hi]
    · rw [Object.raised_eq hi, hrefs]
      exact Nat.add_pos_left hroom.counted _
    · rw [Object.raised_eq hi, hrefs]
      exact hroom.room

/-- **Giving up all new owners** leaves the heap as it was before there were any. -/
theorem drop_raise {h : Heap} {rs : List Ref} (os : List Object) (hr : h.HasRoom rs)
    (died : Array Demise) :
    ((h.raise rs).extend os).drop died (Handle.objects rs) = (h.extend os, died) := by
  induction rs with
  | nil => rw [raise_nil, show Handle.objects [] = [] from rfl, drop]
  | cons r rs ih =>
    cases r with
    | none =>
      rw [raise_none]
      exact ih hr.tail
    | some id =>
      rw [show Handle.objects (some id :: rs) = .object id :: Handle.objects rs from rfl, drop_cons,
        dropOne_raise os hr]
      simpa using ih hr.tail

end Heap

/-! ### The pairs of a list -/

namespace Object

theorem make_eq (p : Payload) (w : World) :
    make p w = .ok (some ⟨w.heap.objects.size⟩)
      { w with heap := w.heap.extend [Object.new p] } := by
  show EStateM.Result.ok (some (w.heap.addObject p).1) { w with heap := (w.heap.addObject p).2 } = _
  rw [Heap.addObject_eq]

/-- A new owner for one more place of an object. -/
theorem retain_raise {w : World} {h : Heap} {r : Ref} {rs : List Ref} {os : List Object}
    (hw : w.reclaim = true) (hr : h.HasRoom (r :: rs)) :
    retain r { w with heap := (h.raise rs).extend os } =
      .ok r { w with heap := (h.raise (r :: rs)).extend os } := by
  cases r with
  | none =>
    rw [Heap.raise_none]
    rfl
  | some id =>
    obtain ⟨o, ho, hroom⟩ := hr id List.mem_cons_self
    simp only [retain_eq, Heap.object?_extend_raise ho, payload_raised, hw, Bool.not_true,
      Bool.or_false]
    by_cases hi : o.payload.isImmortal = true
    · rw [if_pos hi, Heap.raise_immortal ho hi]
    · rw [Bool.not_eq_true] at hi
      have hroom := hroom hi
      rw [List.count_cons_self] at hroom
      have hrefs := (hroom.mono (Nat.le_succ _)).toNat_refs
      -- there is room for this place after all that have been counted before
      have hne : o.refs + UInt32.ofNat (rs.count (some id)) ≠ maxCount := by
        intro he
        have := hroom.room
        rw [he] at hrefs
        omega
      rw [Heap.extend_raise_cons ho hi]
      simp [raised_eq hi, hi, hroom.alive, hne]

end Object

namespace Pair

/-- The first pair of a list and all its pairs, if they are added to a heap of `n` objects. -/
def link (n : Nat) : List Ref → Ref × List Object
  | [] => (Heap.emptyList, [])
  | r :: rs =>
    let (tail, pairs) := link n rs
    (some ⟨n + pairs.length⟩, pairs ++ [Object.new (.pair r tail)])

/-- **A new list** has one pair for each item, and each item has one more owner for each of its
places in the list. -/
theorem makeList_eq {w : World} (hw : w.reclaim = true) {rs : List Ref} (hr : w.heap.HasRoom rs) :
    makeList rs w = .ok (link w.heap.objects.size rs).1
      { w with heap := (w.heap.raise rs).extend (link w.heap.objects.size rs).2 } := by
  induction rs with
  | nil =>
    rw [Heap.raise_nil]
    simp [link, Heap.extend_nil, makeList, pure, EStateM.pure]
  | cons r rs ih =>
    rw [makeList, Run.bind_ok (ih hr.tail), Run.bind_ok (Object.retain_raise hw hr), Object.make_eq]
    simp [link, Heap.extend_extend]

/-- A new list whose items were owned until it was there. -/
theorem makeList_ensuring_eq {w : World} (hw : w.reclaim = true) {rs : List Ref}
    (hr : w.heap.HasRoom rs) :
    ((makeList rs).ensuring (World.releaseAll rs)) w = .ok (link w.heap.objects.size rs).1
      { w with heap := w.heap.extend (link w.heap.objects.size rs).2 } := by
  simp [Run.ensuring, makeList_eq hw hr, World.releaseAll, World.drop, hw, Heap.drop_raise _ hr]

end Pair

end CountedLisp
