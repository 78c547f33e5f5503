import CountedLisp.Proofs.Closing
import CountedLisp.Proofs.Lifetimes
import CountedLisp.Proofs.Quoting

/-!
# Lists in a heap

`Heap.IsListOf` says that a reference points to a list, with its pairs and its items. If it does,
then all ways of access to lists agree on the items (`Pair.Reads`), and otherwise all of them refuse
(`Pair.Refuses`); `Heap.follow` decides which it is, given a depth that is greater than the number
of pairs (`follow_of_isListOf`). That the loops of the model agree with it is shown in
`Proofs.Spines`.

A new list is such a list of new pairs (`isListOf_link`). Giving it up destroys the pairs one after
the other, and each pair gives up its item. As the order does not matter, this is the same as
destroying the pairs and then giving up all items (`drop_link`).
-/

namespace CountedLisp

open Run

/-! ### Lists -/

namespace Heap

/-- A reference points to a chain of living pairs that ends with the empty list. The pairs and the
items of this list are given in order. -/
inductive IsListOf (h : Heap) : Ref → List ObjectId → List Ref → Prop where
  | nil {r : Ref} {o : Object} (ho : h.get? r = some o) (hp : o.payload = .emptyList) :
    IsListOf h r [] []
  | cons {id : ObjectId} {o : Object} {left right : Ref} {pairs : List ObjectId} {items : List Ref}
    (ho : h.object? id = some o) (hd : o.dead = false) (hp : o.payload = .pair left right)
    (hl : IsListOf h right pairs items) : IsListOf h (some id) (id :: pairs) (left :: items)

variable {h : Heap} {r : Ref} {pairs : List ObjectId} {items : List Ref}

theorem IsListOf.length_eq (hl : h.IsListOf r pairs items) : pairs.length = items.length := by
  induction hl with
  | nil => rfl
  | cons _ _ _ _ ih => rw [List.length_cons, List.length_cons, ih]

/-- A list is followed to its end, or as far as the depth allows. -/
theorem follow_of_isListOf (hl : h.IsListOf r pairs items) (depth : Nat) :
    h.follow depth r = if pairs.length < depth then .proper items else .endless := by
  induction hl generalizing depth with
  | @nil r o ho hp =>
    obtain ⟨refs, dead, payload⟩ := o
    cases hp
    cases depth with
    | zero => rfl
    | succ d => simp [follow, ho]
  | @cons id o left right pairs items ho hd hp hl ih =>
    obtain ⟨refs, dead, payload⟩ := o
    cases hd
    cases hp
    cases depth with
    | zero => rfl
    | succ d =>
      have hget : h.get? (some id) = some ⟨refs, false, .pair left right⟩ := ho
      rw [follow, hget]
      dsimp only
      rw [ih d]
      by_cases hlt : pairs.length < d
      · simp [hlt]
      · simp [hlt]

theorem isListOf_of_follow {depth : Nat} (hf : h.follow depth r = .proper items) :
    ∃ pairs, h.IsListOf r pairs items := by
  induction depth generalizing r items with
  | zero => cases hf
  | succ d ih =>
    rw [follow] at hf
    split at hf
    · next ho =>
      cases hf
      exact ⟨[], .nil ho rfl⟩
    · next left right ho =>
      obtain ⟨id, rfl, hid⟩ := Option.bind_eq_some_iff.1 ho
      cases hrest : h.follow d right with
      | proper rest =>
        rw [hrest] at hf
        cases hf
        obtain ⟨pairs, hl⟩ := ih hrest
        exact ⟨id :: pairs, .cons hid rfl rfl hl⟩
      | improper =>
        rw [hrest] at hf
        cases hf
      | endless =>
        rw [hrest] at hf
        cases hf
    · cases hf

end Heap

/-! ### Access -/

namespace Pair

variable {r : Ref} {rs : List Ref} {w : World}

/-- All ways of access find a list with these items, and nothing changes. -/
structure Reads (r : Ref) (rs : List Ref) (w : World) : Prop where
  isList : isList r w = .ok true w
  length : length r w = .ok rs.length w
  items : items r w = .ok rs w
  item : ∀ (i : Nat) (hi : i < rs.length), item r i w = .ok rs[i] w
  outside : ∀ i : Int, i < 0 ∨ rs.length ≤ i →
    ∃ f : Failure, f.kind = .indexOutOfRange ∧ Pair.item r i w = .error (.failure f) w

/-- All ways of access find that there is no list, and nothing changes. -/
structure Refuses (r : Ref) (w : World) : Prop where
  isList : isList r w = .ok false w
  length : ∃ f : Failure, f.kind = .typeMismatch ∧ length r w = .error (.failure f) w
  items : ∃ f : Failure, f.kind = .typeMismatch ∧ items r w = .error (.failure f) w
  item : ∀ i, ∃ f : Failure, f.kind = .typeMismatch ∧ item r i w = .error (.failure f) w

theorem reads_of_spine (hs : w.heap.spine r = .proper rs) : Reads r rs w := by
  have hitems : items? r w = .ok (some rs) w := by rw [items?_eq, hs]
  have hfor (op : Text) : itemsFor op r w = .ok rs w := by
    rw [itemsFor, bind_ok hitems]
    rfl
  refine ⟨?_, length_of_proper hs, by rw [items_eq, hfor], fun i hi => ?_, fun i hi => ?_⟩
  · rw [isList_eq, bind_ok hitems]
    rfl
  · rw [item_eq, bind_ok (hfor _)]
    simp [hi, pure, EStateM.pure]
  · rw [item_eq, bind_ok (hfor _)]
    have hnone : (if 0 ≤ i then rs[i.toNat]? else none) = none := by
      split_ifs with hpos
      · exact List.getElem?_eq_none (by omega)
      · rfl
    simp only [hnone]
    exact ⟨_, rfl, rfl⟩

theorem refuses_of_spine (hs : w.heap.spine r = .improper) {description : Text}
    (hd : w.heap.describe? r = some description) : Refuses r w := by
  have hitems : items? r w = .ok none w := by rw [items?_eq, hs]
  have hdescribe : Object.describe r w = .ok description w := by
    rw [Object.describe, get_bind, hd]
    rfl
  have hfor (op : Text) : ∃ f : Failure, f.kind = .typeMismatch ∧
      itemsFor op r w = .error (.failure f) w := by
    refine ⟨.of .typeMismatch op "list" description, rfl, ?_⟩
    rw [itemsFor, bind_ok hitems]
    show Object.mismatch op "list" r w = _
    rw [Object.mismatch, bind_ok hdescribe]
    rfl
  refine ⟨?_, ?_, by rw [items_eq]; exact hfor _, fun i => ?_⟩
  · rw [isList_eq, bind_ok hitems]
    rfl
  · obtain ⟨f, hk, hf⟩ := hfor "length"
    exact ⟨f, hk, by rw [length_eq, bind_error hf]⟩
  · obtain ⟨f, hk, hf⟩ := hfor "list-ref"
    exact ⟨f, hk, by rw [item_eq, bind_error hf]⟩

/-! ### A new list -/

/-- The numbers of the pairs of a new list, the first one first. -/
def linkIds (n : Nat) : List Ref → List ObjectId
  | [] => []
  | _ :: rs => ⟨n + rs.length⟩ :: linkIds n rs

theorem length_link (n : Nat) (rs : List Ref) : (link n rs).2.length = rs.length := by
  induction rs with
  | nil => rfl
  | cons r rs ih => simp [link, ih]

theorem mem_linkIds {n : Nat} {rs : List Ref} {id : ObjectId} :
    id ∈ linkIds n rs ↔ n ≤ id.index ∧ id.index < n + rs.length := by
  induction rs with
  | nil =>
    rw [linkIds, List.length_nil]
    simp
  | cons r rs ih =>
    rw [linkIds, List.mem_cons, ih, List.length_cons]
    have hid : id = ⟨n + rs.length⟩ ↔ id.index = n + rs.length :=
      ⟨congrArg ObjectId.index, fun he => by cases id; exact congrArg _ he⟩
    rw [hid]
    omega

theorem nodup_linkIds (n : Nat) (rs : List Ref) : (linkIds n rs).Nodup := by
  induction rs with
  | nil => exact List.nodup_nil
  | cons r rs ih =>
    refine List.nodup_cons.2 ⟨fun hmem => ?_, ih⟩
    have := (mem_linkIds.1 hmem).2
    exact lt_irrefl _ this

end Pair

theorem Handle.objects_cons (r : Ref) (rs : List Ref) :
    Handle.objects (r :: rs) = Handle.objects [r] ++ Handle.objects rs :=
  List.filterMap_append (l := [r])

namespace Heap

open Pair

variable {h : Heap}

theorem object?_link (r : Ref) (rs : List Ref) (later : List Object) :
    (h.extend ((link h.objects.size (r :: rs)).2 ++ later)).object?
        ⟨h.objects.size + rs.length⟩ =
      some (Object.new (.pair r (link h.objects.size rs).1)) := by
  rw [object?_extend_new, ← length_link h.objects.size rs]
  simp [link]

/-- Every new pair has one owner. -/
theorem object?_linkIds {rs : List Ref} {id : ObjectId} (hid : id ∈ linkIds h.objects.size rs)
    (later : List Object) :
    ∃ left right, (h.extend ((link h.objects.size rs).2 ++ later)).object? id =
      some (Object.new (.pair left right)) := by
  induction rs generalizing later with
  | nil => cases hid
  | cons r rs ih =>
    rcases List.mem_cons.1 hid with rfl | hid
    · exact ⟨_, _, object?_link r rs later⟩
    · have := ih hid (Object.new (.pair r (link h.objects.size rs).1) :: later)
      simpa [link] using this

/-- **New pairs make a list** of their items. -/
theorem isListOf_link (hn : h.HasNil) (rs : List Ref) (later : List Object) :
    (h.extend ((link h.objects.size rs).2 ++ later)).IsListOf (link h.objects.size rs).1
      (linkIds h.objects.size rs) rs := by
  induction rs generalizing later with
  | nil =>
    obtain ⟨o, ho, hp⟩ := (hn.extend later).payload
    exact .nil ho hp
  | cons r rs ih =>
    have hrest := ih (Object.new (.pair r (link h.objects.size rs).1) :: later)
    have hpair := object?_link (h := h) r rs later
    have hfirst : (link h.objects.size (r :: rs)).1 = some ⟨h.objects.size + rs.length⟩ := by
      rw [← length_link h.objects.size rs]
      rfl
    rw [hfirst]
    refine .cons hpair rfl rfl ?_
    simpa [link] using hrest

/-! ### Giving up a new list -/

theorem setObject_extend_new (h : Heap) (os : List Object) (o o' : Object) (later : List Object) :
    (h.extend (os ++ o :: later)).setObject ⟨h.objects.size + os.length⟩ o' =
      h.extend (os ++ o' :: later) := by
  simp [extend, setObject, Array.setIfInBounds_append_right]

/-- The last owner of a new object gives it up. -/
theorem dropOne_new (h : Heap) (os : List Object) {p : Payload} (hp : p.isImmortal = false)
    (later : List Object) :
    (h.extend (os ++ Object.new p :: later)).dropOne (.object ⟨h.objects.size + os.length⟩) =
      { heap := h.extend (os ++ (Object.new p).destroyed :: later), freed := p.owned,
        demise := some (.object (Object.new p).tag) } := by
  have hnew : (h.extend (os ++ Object.new p :: later)).object? ⟨h.objects.size + os.length⟩ =
      some (Object.new p) := by
    rw [object?_extend_new]
    simp
  simp only [dropOne, dropObject, hnew, setObject_extend_new]
  simp [Object.new, hp]

/-- The heap that is left does not depend on the order in which references are given up, nor on what
was destroyed before. -/
theorem fst_drop_perm {work work' : List Handle} (hw : work.Perm work')
    (died died' : Array Demise) : (h.drop died work).1 = (h.drop died' work').1 := by
  have hdied := drop_died h #[] died work
  have hdied' := drop_died h #[] died' work'
  rw [Array.append_empty] at hdied hdied'
  rw [hdied, hdied']
  exact (drop_perm (.refl _) hw).1

theorem HasNil.drop_emptyList (hn : h.HasNil) :
    (h.drop #[] (Handle.objects [emptyList])).1 = h := by
  obtain ⟨o, ho, hp⟩ := hn.payload
  show (h.drop #[] [.object ⟨0⟩]).1 = h
  rw [drop_cons]
  simp [dropOne, dropObject, ho, hp, Payload.isImmortal, drop_nil]

/-- **Giving up a new list** destroys its pairs and gives up its items. -/
theorem drop_link (hn : h.HasNil) (rs : List Ref) (later : List Object) :
    ((h.extend ((link h.objects.size rs).2 ++ later)).drop #[]
        (Handle.objects [(link h.objects.size rs).1])).1 =
      ((h.extend ((link h.objects.size rs).2.map Object.destroyed ++ later)).drop #[]
        (Handle.objects rs)).1 := by
  induction rs generalizing later with
  | nil =>
    rw [show Handle.objects [] = [] from rfl, drop_nil]
    exact (hn.extend later).drop_emptyList
  | cons r rs ih =>
    let pairs := (link h.objects.size rs).2
    let tail := (link h.objects.size rs).1
    let rest := (Object.new (.pair r tail)).destroyed :: later
    -- the pair goes first; its item can wait until the pairs behind are gone, too
    calc ((h.extend (pairs ++ [Object.new (.pair r tail)] ++ later)).drop #[]
          [.object ⟨h.objects.size + pairs.length⟩]).1
        = ((h.extend (pairs ++ rest)).drop #[]
            (Handle.objects [tail] ++ Handle.objects [r])).1 := by
          rw [drop_cons, List.append_assoc, List.singleton_append, dropOne_new h pairs rfl later]
          refine fst_drop_perm ?_ _ _
          rw [List.append_nil, Payload.owned, Handle.objects_cons r]
          exact List.perm_append_comm
      _ = ((h.extend (pairs.map Object.destroyed ++ rest)).drop #[]
            (Handle.objects rs ++ Handle.objects [r])).1 := by
          rw [fst_drop_append, ih rest, ← fst_drop_append]
      _ = _ := by
          rw [Handle.objects_cons r rs, fst_drop_perm List.perm_append_comm #[] #[]]
          simp [link, pairs, rest, tail]

theorem HasNil.raise (hn : h.HasNil) (rs : List Ref) : (h.raise rs).HasNil := by
  obtain ⟨o, ho, htag⟩ := hn
  have hraised : (h.raise rs).get? emptyList = (h.get? emptyList).map _ := object?_raise h rs ⟨0⟩
  refine ⟨_, by rw [hraised, ho, Option.map_some], ?_⟩
  rw [← htag, Object.tag, Object.tag, Object.payload_raised]

/-! ### What is new and what is not -/

/-- The second heap has exactly these objects more than the first one, and the same scopes. -/
structure Adds (h h' : Heap) (ids : List ObjectId) : Prop where
  nodup : ids.Nodup
  mem : ∀ id, id ∈ ids ↔ h.object? id = none ∧ h'.object? id ≠ none
  scopes : h'.scopes = h.scopes
  registries : h'.registries = h.registries
  serial : h'.serial = h.serial

theorem adds_extend {ids : List ObjectId} {os : List Object} (hnodup : ids.Nodup)
    (hmem : ∀ id : ObjectId,
      id ∈ ids ↔ h.objects.size ≤ id.index ∧ id.index < h.objects.size + os.length) :
    h.Adds (h.extend os) ids where
  nodup := hnodup
  mem id := by rw [hmem, Ne, object?_eq_none_iff, object?_eq_none_iff, size_objects_extend, not_le]
  scopes := rfl
  registries := rfl
  serial := rfl

theorem adds_extend_raise {rs : List Ref} {ids : List ObjectId} {os : List Object}
    (ha : h.Adds (h.extend os) ids) : h.Adds ((h.raise rs).extend os) ids where
  nodup := ha.nodup
  mem id := by
    rw [ha.mem, Ne, Ne, object?_eq_none_iff, object?_eq_none_iff, object?_eq_none_iff,
      size_objects_extend, size_objects_extend, size_objects_raise]
  scopes := rfl
  registries := rfl
  serial := rfl

theorem adds_link (rs : List Ref) {os : List Object} (hlen : os.length = rs.length) :
    h.Adds (h.extend os) (linkIds h.objects.size rs) :=
  adds_extend (nodup_linkIds _ _) fun id => by rw [mem_linkIds, hlen]

/-- The count of every object can grow by the number of its places in a list. -/
def Fits (h : Heap) (rs : List Ref) : Prop :=
  ∀ id o, h.object? id = some o → o.payload.isImmortal = false →
    o.refs.toNat + rs.count (some id) ≤ maxCount.toNat

/-- Every living object has a count. -/
def Counts (h : Heap) : Prop :=
  ∀ id o, h.object? id = some o → o.dead = false → 0 < o.refs.toNat

theorem fits_nil (h : Heap) : h.Fits [] := by
  intro id o _ _
  have hlt := o.refs.toNat_lt
  rw [List.count_nil, show maxCount.toNat = 4294967295 from rfl]
  omega

/-- There is room for every list of some length if there is for as many owners of one object. -/
theorem fits_of_all {rs : List Ref}
    (hall : h.objects.toList.all (fun o => o.refs.toNat + rs.length ≤ maxCount.toNat) = true) :
    h.Fits rs := by
  intro id o ho _
  have hmem : o ∈ h.objects.toList := Array.mem_toList_iff.2 (Array.mem_of_getElem? ho)
  have hle := List.all_eq_true.1 hall o hmem
  rw [decide_eq_true_eq] at hle
  have hcount : rs.count (some id) ≤ rs.length := List.count_le_length
  omega

theorem Fits.hasRoom {rs : List Ref} (hf : h.Fits rs) (hc : h.Counts)
    (hl : ∀ id, some id ∈ rs → h.Lives (.object id)) : h.HasRoom rs := by
  intro id hid
  obtain ⟨o, ho, hd⟩ := hl id hid
  exact ⟨o, ho, fun hi => ⟨hd, hc id o ho hd, hf id o ho hi⟩⟩

/-- The counts of old objects have grown by the number of their places. -/
theorem Fits.grows {rs : List Ref} (hf : h.Fits rs) {id : ObjectId} {o : Object}
    (ho : h.object? id = some o) (os : List Object) :
    ∃ o', ((h.raise rs).extend os).object? id = some o' ∧ o'.payload = o.payload ∧
      o'.dead = o.dead ∧ o'.refs.toNat =
        o.refs.toNat + if o.payload.isImmortal then 0 else rs.count (some id) := by
  refine ⟨_, object?_extend_raise ho rs os, o.payload_raised _, ?_⟩
  cases hi : o.payload.isImmortal with
  | true =>
    rw [Object.raised_of_immortal hi]
    exact ⟨rfl, rfl⟩
  | false =>
    have hroom : o.refs.toNat + rs.count (some id) ≤ 4294967295 := hf id o ho hi
    rw [Object.raised_eq hi]
    refine ⟨rfl, ?_⟩
    rw [UInt32.toNat_add, UInt32.toNat_ofNat', if_neg (by simp)]
    omega

/-- Objects that were added and destroyed are dead. -/
theorem dead_extend {os : List Object} {id : ObjectId} (hle : h.objects.size ≤ id.index)
    (hlt : id.index < h.objects.size + os.length) :
    (h.extend (os.map Object.destroyed)).Dead (.object id) := by
  obtain ⟨i, rfl⟩ : ∃ i, id = ⟨h.objects.size + i⟩ :=
    ⟨id.index - h.objects.size, by rw [Nat.add_sub_cancel' hle]⟩
  have hi : i < os.length := Nat.lt_of_add_lt_add_left hlt
  refine ⟨os[i].destroyed, ?_, rfl⟩
  rw [object?_extend_new, List.getElem?_map, List.getElem?_eq_getElem hi, Option.map_some]

/-- The heap with a new list. -/
def withList (h : Heap) (rs : List Ref) : Heap :=
  (h.raise rs).extend (link h.objects.size rs).2

theorem isListOf_withList (hn : h.HasNil) (rs : List Ref) :
    (h.withList rs).IsListOf (link h.objects.size rs).1 (linkIds h.objects.size rs) rs := by
  have hlink := isListOf_link (hn.raise rs) rs []
  rwa [size_objects_raise, List.append_nil] at hlink

theorem spine_withList (hn : h.HasNil) (rs : List Ref) :
    (h.withList rs).spine (link h.objects.size rs).1 = .proper rs := by
  have hl := isListOf_withList hn rs
  have hsize : (h.withList rs).objects.size = h.objects.size + rs.length := by
    rw [withList, size_objects_extend, size_objects_raise, length_link]
  rw [spine, follow_of_isListOf hl, hl.length_eq, if_pos (by omega)]

theorem object?_withList {rs : List Ref} {id : ObjectId} (hid : id ∈ linkIds h.objects.size rs) :
    ∃ left right, (h.withList rs).object? id = some (Object.new (.pair left right)) := by
  have hid' : id ∈ linkIds (h.raise rs).objects.size rs := by rwa [size_objects_raise]
  have hpair := object?_linkIds hid' []
  rwa [size_objects_raise, List.append_nil] at hpair

/-- **Giving up a new list** whose items have other owners takes back what they got. -/
theorem drop_withList (hn : h.HasNil) {rs : List Ref} (hr : h.HasRoom rs) :
    ((h.withList rs).drop #[] (Handle.objects [(link h.objects.size rs).1])).1 =
      h.extend ((link h.objects.size rs).2.map Object.destroyed) := by
  have hlink := drop_link (hn.raise rs) rs []
  rw [size_objects_raise, List.append_nil, List.append_nil] at hlink
  rw [withList, hlink, drop_raise _ hr]

end Heap

/-! ### The maximum -/

namespace Pair

variable {w : World} {rs : List Ref}

/-- An object that has as many owners as can be counted does not get another one. -/
theorem retain_raise_overflow {h : Heap} {id : ObjectId} {o : Object} {os : List Object}
    (hw : w.reclaim = true) (hf : h.Fits rs) (ho : h.object? id = some o) (hd : o.dead = false)
    (hnot : ¬h.Fits (some id :: rs)) :
    Object.retain (some id) { w with heap := (h.raise rs).extend os } =
      .error (.breach Object.overflowBreach.text) { w with heap := (h.raise rs).extend os } := by
  -- no other count has changed, so that it is this one that does not fit
  have hone : o.payload.isImmortal = false ∧
      o.refs.toNat + rs.count (some id) = maxCount.toNat := by
    simp only [Heap.Fits, not_forall, not_le] at hnot
    obtain ⟨id', o', ho', hi', hlt⟩ := hnot
    by_cases hid : id' = id
    · subst hid
      rw [ho] at ho'
      cases ho'
      rw [List.count_cons_self] at hlt
      have := hf _ _ ho hi'
      exact ⟨hi', by omega⟩
    · rw [List.count_cons_of_ne (by simpa using fun he => hid he.symm)] at hlt
      exact absurd (hf _ _ ho' hi') (not_le.2 hlt)
  obtain ⟨hi, hcount⟩ := hone
  have hmax : o.refs + UInt32.ofNat (rs.count (some id)) = maxCount := by
    apply UInt32.toNat_inj.1
    rw [show maxCount.toNat = 4294967295 from rfl] at hcount ⊢
    rw [UInt32.toNat_add, UInt32.toNat_ofNat']
    omega
  simp only [Object.retain_eq, Heap.object?_extend_raise ho, Object.raised_eq hi]
  simp [hi, hw, hd, hmax]

/-- A list with more places for an object than can be counted is not made. -/
theorem makeList_overflow (hw : w.reclaim = true) (hc : w.heap.Counts)
    (hl : ∀ id, some id ∈ rs → w.heap.Lives (.object id)) (hnot : ¬w.heap.Fits rs) :
    ∃ w', makeList rs w = .error (.breach Object.overflowBreach.text) w' := by
  induction rs with
  | nil => exact absurd w.heap.fits_nil hnot
  | cons r rs ih =>
    have hl' : ∀ id, some id ∈ rs → w.heap.Lives (.object id) := fun id hid =>
      hl id (List.mem_cons_of_mem _ hid)
    by_cases hf : w.heap.Fits rs
    · cases r with
      | none =>
        refine absurd (fun id o ho hi => ?_) hnot
        rw [List.count_cons_of_ne (by simp)]
        exact hf id o ho hi
      | some id =>
        obtain ⟨o, ho, hd⟩ := hl id List.mem_cons_self
        rw [makeList, bind_ok (makeList_eq hw (hf.hasRoom hc hl')),
          bind_error (retain_raise_overflow hw hf ho hd hnot)]
        exact ⟨_, rfl⟩
    · obtain ⟨w', h'⟩ := ih hl' hf
      exact ⟨w', bind_error h'⟩

end Pair

/-! ### Lawless clients -/

namespace Client

variable {engine : Engine} {w : World}

/-- The empty list is always where it is expected. -/
theorem hasNil_afterDeeds (he : Lawless engine) (hw : w.Fresh) (deeds : List Deed) :
    (afterDeeds engine w deeds).heap.HasNil := by
  obtain ⟨new, hages⟩ := later_afterDeeds he w deeds
  have hstart : w.heap.object? ⟨0⟩ = some (Object.new .emptyList) := by
    rw [hw.heap]
    rfl
  obtain ⟨o, ho, htag, -⟩ := hages.heap.object hstart
  exact ⟨o, ho, htag⟩

/-- Every living object has a count, whatever has been done. -/
theorem counts_afterDeeds (he : Lawless engine) (hw : w.Fresh) (deeds : List Deed) :
    (afterDeeds engine w deeds).heap.Counts := by
  have hsteady : Heap.Steady ((afterDeeds engine w deeds).conduct.wrapped = true)
      (fun o => o.refs = 0 → o.dead = true) fun _ => True :=
    { Heap.steady_kept with
      newScope := fun _ _ => trivial
      moreScope := fun _ _ _ => trivial
      lessScope := fun _ _ _ => trivial
      deadScope := fun _ => trivial
      bindings := fun _ _ => trivial }
  have hstart : w.heap.Every (fun o => o.refs = 0 → o.dead = true) fun _ => True := by
    rw [hw.heap]
    exact hsteady.initial
  have hall := hsteady.moves hstart (moves_afterDeeds he.moves w deeds).heap
  intro id o ho hd
  refine Nat.pos_of_ne_zero fun h0 => ?_
  have := hall.object ho (UInt32.toNat_inj.1 h0)
  rw [hd] at this
  cases this

end Client

end CountedLisp
