import CountedLisp.Eval.Quotation
import CountedLisp.Proofs.Lists
import CountedLisp.Proofs.Values

/-!
# Quoted data and their values

A datum has a value if all its numerals are in range (`Datum.value?`). `Value.place` tells where the
objects of a value go in a heap of a given size: one for each constant and one pair for each item of
a list, each after the objects of what it contains. Quoting a datum adds exactly these objects to
the heap and changes nothing else in the world (`build_eq`): on the way each item of a list has a
second owner for some time, and nothing is destroyed. The new object has the value of the datum
(`depicts_place`).
-/

namespace CountedLisp

/-! ### The value of a datum -/

namespace Datum

mutual
/-- The value of a datum. Names are strings, and the first literal that has no value is what stops
it. -/
def value? : Datum → Except Halt Value
  | .atom t =>
    if t.kind = .identifier then .ok (.constant (.string t.lexeme))
    else t.literal.map .constant
  | .list items => (values? items).map .list
termination_by structural d => d

/-- The values of data. -/
def values? : List Datum → Except Halt (List Value)
  | [] => .ok []
  | d :: ds => (value? d).bind fun v => (values? ds).map (v :: ·)
termination_by structural ds => ds
end

theorem value?_atom_ok {t : Token} {v : Value} (hk : t.kind ≠ .identifier)
    (h : value? (.atom t) = .ok v) : ∃ c, t.literal = .ok c ∧ .constant c = v := by
  rw [value?, if_neg hk] at h
  cases hc : t.literal with
  | error f =>
    rw [hc] at h
    cases h
  | ok c =>
    rw [hc] at h
    exact ⟨c, rfl, Except.ok.inj h⟩

theorem value?_list_ok {items : List Datum} {v : Value} (h : value? (.list items) = .ok v) :
    ∃ vs, values? items = .ok vs ∧ .list vs = v := by
  rw [value?] at h
  cases hvs : values? items with
  | error f =>
    rw [hvs] at h
    cases h
  | ok vs =>
    rw [hvs] at h
    exact ⟨vs, rfl, Except.ok.inj h⟩

theorem values?_cons_ok {d : Datum} {ds : List Datum} {vs : List Value}
    (h : values? (d :: ds) = .ok vs) :
    ∃ u us, value? d = .ok u ∧ values? ds = .ok us ∧ u :: us = vs := by
  rw [values?] at h
  cases hu : value? d with
  | error f =>
    rw [hu] at h
    cases h
  | ok u =>
    cases hus : values? ds with
    | error f =>
      rw [hu, hus] at h
      cases h
    | ok us =>
      rw [hu, hus] at h
      exact ⟨u, us, rfl, rfl, Except.ok.inj h⟩

end Datum

/-! ### The objects of a value -/

namespace Value

mutual
/-- The object with a value and all objects that are added for it to a heap of `n` objects. -/
def place (n : Nat) : Value → Ref × List Object
  | .constant c => (some ⟨n⟩, [Object.new (.constant c)])
  | .list items =>
    let (rs, os) := placeAll n items
    let (r, pairs) := Pair.link (n + os.length) rs
    (r, os ++ pairs)
termination_by structural v => v

/-- The objects with some values and all objects that are added for them to a heap of `n`
objects. -/
def placeAll (n : Nat) : List Value → List Ref × List Object
  | [] => ([], [])
  | v :: vs =>
    let (r, os) := place n v
    let (rs, os') := placeAll (n + os.length) vs
    (r :: rs, os ++ os')
termination_by structural vs => vs
end

theorem place_list (n : Nat) (items : List Value) :
    (Value.list items).place n =
      ((Pair.link (n + (placeAll n items).2.length) (placeAll n items).1).1,
        (placeAll n items).2 ++
          (Pair.link (n + (placeAll n items).2.length) (placeAll n items).1).2) :=
  rfl

theorem placeAll_cons (n : Nat) (v : Value) (vs : List Value) :
    placeAll n (v :: vs) =
      ((place n v).1 :: (placeAll (n + (place n v).2.length) vs).1,
        (place n v).2 ++ (placeAll (n + (place n v).2.length) vs).2) :=
  rfl

/-- A value is the empty list, or it is a new object. -/
theorem place_cases (n : Nat) (v : Value) :
    (v.place n).1 = Heap.emptyList ∨
      ∃ i p, (v.place n).1 = some ⟨n + i⟩ ∧ (v.place n).2[i]? = some (Object.new p) := by
  cases v with
  | constant c => exact .inr ⟨0, .constant c, rfl, rfl⟩
  | list items =>
    cases hrs : (placeAll n items).1 with
    | nil =>
      left
      rw [place_list, hrs]
      rfl
    | cons r rs =>
      right
      let tail := Pair.link (n + (placeAll n items).2.length) rs
      refine ⟨(placeAll n items).2.length + tail.2.length, .pair r tail.1, ?_, ?_⟩
      · simp [place_list, hrs, Pair.link, tail, Nat.add_assoc]
      · simp [place_list, hrs, Pair.link, tail]

/-- The object with a value is none of those that are added later. -/
theorem place_ne {n : Nat} (hn : 0 < n) (v : Value) (i : Nat) :
    (v.place n).1 ≠ some ⟨n + (v.place n).2.length + i⟩ := by
  intro he
  rcases place_cases n v with hnil | ⟨j, p, hj, hget⟩
  · rw [hnil] at he
    injection he with he
    injection he with he
    omega
  · have hlt := (List.getElem?_eq_some_iff.mp hget).1
    rw [hj] at he
    injection he with he
    injection he with he
    omega

/-- The objects with some values are the empty list, or new and different from each other. -/
theorem placeAll_cases {n : Nat} (hn : 0 < n) (vs : List Value) {id : ObjectId}
    (hid : some id ∈ (placeAll n vs).1) :
    some id = Heap.emptyList ∨ (placeAll n vs).1.count (some id) = 1 ∧
      ∃ i p, id = ⟨n + i⟩ ∧ (placeAll n vs).2[i]? = some (Object.new p) := by
  induction vs generalizing n with
  | nil => cases hid
  | cons v vs ih =>
    have hv := place_cases n v
    rw [placeAll_cons]
    -- the objects of the first value come before those of the others
    by_cases hmem : some id ∈ (placeAll (n + (place n v).2.length) vs).1
    · rcases ih (Nat.add_pos_left hn _) hmem with hnil | ⟨hcount, i, p, rfl, hi⟩
      · exact .inl hnil
      · right
        refine ⟨?_, (place n v).2.length + i, p, by rw [Nat.add_assoc], ?_⟩
        · rw [List.count_cons_of_ne (place_ne hn v i), hcount]
        · rw [List.getElem?_append_right (Nat.le_add_right _ _), Nat.add_sub_cancel_left, hi]
    · have hr : (place n v).1 = some id := by
        rcases List.mem_cons.mp hid with he | he
        · exact he.symm
        · exact absurd he hmem
      rw [hr] at hv ⊢
      rcases hv with hnil | ⟨i, p, hi, hget⟩
      · exact .inl hnil
      · right
        refine ⟨?_, i, p, Option.some.inj hi, ?_⟩
        · rw [List.count_cons_self, List.count_eq_zero_of_not_mem hmem]
        · rw [List.getElem?_append_left (List.getElem?_eq_some_iff.mp hget).1, hget]

end Value

/-! ### Building -/

namespace Heap

/-- Object number zero is the empty list, as in every world whose books are kept. -/
def HasNil (h : Heap) : Prop :=
  ∃ o, h.get? emptyList = some o ∧ o.tag = .emptyList

theorem HasNil.extend {h : Heap} (hn : h.HasNil) (os : List Object) : (h.extend os).HasNil := by
  obtain ⟨o, ho, htag⟩ := hn
  exact ⟨o, object?_extend_of_some os ho, htag⟩

theorem HasNil.payload {h : Heap} (hn : h.HasNil) :
    ∃ o, h.object? ⟨0⟩ = some o ∧ o.payload = .emptyList := by
  obtain ⟨⟨refs, dead, payload⟩, ho, htag⟩ := hn
  refine ⟨_, ho, ?_⟩
  cases payload with
  | emptyList => rfl
  | constant c => cases c <;> cases htag
  | _ => cases htag

theorem HasNil.pos {h : Heap} (hn : h.HasNil) : 0 < h.objects.size := by
  obtain ⟨o, ho, -⟩ := hn.payload
  exact lt_size_of_object? ho

/-- The items of a new list can get a second owner. -/
theorem hasRoom_placeAll {h : Heap} (hn : h.HasNil) (vs : List Value) :
    (h.extend (Value.placeAll h.objects.size vs).2).HasRoom
      (Value.placeAll h.objects.size vs).1 := by
  intro id hid
  rcases Value.placeAll_cases hn.pos vs hid with hnil | ⟨hcount, i, p, rfl, hi⟩
  · cases hnil
    obtain ⟨o, ho, hp⟩ := (hn.extend (Value.placeAll h.objects.size vs).2).payload
    refine ⟨o, ho, ?_⟩
    rw [hp]
    rintro ⟨⟩
  · refine ⟨Object.new p, by rw [object?_extend_new, hi], fun _ => ?_⟩
    rw [hcount]
    exact ⟨rfl, Nat.one_pos, show 1 + 1 ≤ maxCount.toNat by decide⟩

end Heap

theorem Run.onHalt_ok {α : Type} {act : Run α} (after : World → World) {a : α} {w w' : World}
    (h : act w = .ok a w') : act.onHalt after w = .ok a w' := by
  rw [onHalt, h]

namespace Quotation

open Value

mutual
/-- **Quoting a datum** adds the objects of its value to the heap. -/
theorem build_eq (d : Datum) {v : Value} (hd : d.value? = .ok v) {w : World}
    (hw : w.reclaim = true) (hn : w.heap.HasNil) :
    build d w = .ok (v.place w.heap.objects.size).1
      { w with heap := w.heap.extend (v.place w.heap.objects.size).2 } := by
  match d with
  | .atom t =>
    unfold build
    split_ifs with hk
    · rw [Datum.value?, if_pos hk] at hd
      cases hd
      exact Object.make_eq _ w
    · obtain ⟨c, hc, rfl⟩ := Datum.value?_atom_ok hk hd
      rw [Token.evaluate, hc]
      exact Object.make_eq _ w
  | .list items =>
    obtain ⟨vs, hvs, rfl⟩ := Datum.value?_list_ok hd
    have hlist := Pair.makeList_ensuring_eq
      (w := { w with heap := w.heap.extend (placeAll w.heap.objects.size vs).2 }) hw
      (Heap.hasRoom_placeAll hn vs)
    rw [build, Run.bind_ok (buildAll_eq [] items hvs hw hn), List.nil_append, hlist]
    simp only [place_list, Heap.extend_extend, Heap.size_objects_extend]
termination_by structural d

theorem buildAll_eq (made : List Ref) (ds : List Datum) {vs : List Value}
    (hds : Datum.values? ds = .ok vs) {w : World} (hw : w.reclaim = true) (hn : w.heap.HasNil) :
    buildAll made ds w = .ok (made ++ (placeAll w.heap.objects.size vs).1)
      { w with heap := w.heap.extend (placeAll w.heap.objects.size vs).2 } := by
  match ds with
  | [] =>
    cases hds
    simp [buildAll, placeAll, Heap.extend_nil, pure, EStateM.pure]
  | d :: ds =>
    obtain ⟨v, vs, hv, hvs, rfl⟩ := Datum.values?_cons_ok hds
    have hfirst := Run.onHalt_ok (World.releaseAll made) (build_eq d hv hw hn)
    have hrest := buildAll_eq (made ++ [(v.place w.heap.objects.size).1]) ds hvs
      (w := { w with heap := w.heap.extend (v.place w.heap.objects.size).2 }) hw (hn.extend _)
    rw [buildAll, Run.bind_ok hfirst, hrest, placeAll_cons]
    simp [Heap.extend_extend]
termination_by structural ds
end

end Quotation

/-! ### The value of what was built -/

namespace Heap

theorem Depicts.extend {h : Heap} {r : Ref} {v : Value} (hv : h.Depicts r v) (os : List Object) :
    (h.extend os).Depicts r v := by
  induction hv with
  | constant ho hd hp => exact .constant (object?_extend_of_some os ho) hd hp
  | nil ho hp => exact .nil (object?_extend_of_some os ho) hp
  | cons ho hd hp _ _ ih ihs => exact .cons (object?_extend_of_some os ho) hd hp ih ihs

/-- New pairs make a list of their items. -/
theorem depicts_link {h : Heap} (hn : h.HasNil) {rs : List Ref} {vs : List Value}
    (hrs : List.Forall₂ h.Depicts rs vs) :
    (h.extend (Pair.link h.objects.size rs).2).Depicts (Pair.link h.objects.size rs).1
      (.list vs) := by
  induction hrs with
  | nil =>
    obtain ⟨o, ho, hp⟩ := hn.payload
    exact .nil (object?_extend_of_some [] ho) hp
  | @cons r v rs vs hv hvs ih =>
    have hpair : (h.extend (Pair.link h.objects.size (r :: rs)).2).object?
        ⟨h.objects.size + (Pair.link h.objects.size rs).2.length⟩ =
          some (Object.new (.pair r (Pair.link h.objects.size rs).1)) := by
      simp [object?_extend_new, Pair.link]
    refine .cons hpair rfl rfl (hv.extend _) ?_
    have htail := ih.extend [Object.new (.pair r (Pair.link h.objects.size rs).1)]
    rwa [extend_extend] at htail

mutual
/-- **The objects of a value** have this value. -/
theorem depicts_place {h : Heap} (hn : h.HasNil) (v : Value) :
    (h.extend (v.place h.objects.size).2).Depicts (v.place h.objects.size).1 v := by
  match v with
  | .constant c =>
    have hnew := object?_extend_new h [Object.new (.constant c)] 0
    exact .constant hnew rfl rfl
  | .list items =>
    have hlink := depicts_link (hn.extend _) (depicts_placeAll hn items)
    rw [extend_extend, size_objects_extend] at hlink
    exact hlink
termination_by structural v

theorem depicts_placeAll {h : Heap} (hn : h.HasNil) (vs : List Value) :
    List.Forall₂ (h.extend (Value.placeAll h.objects.size vs).2).Depicts
      (Value.placeAll h.objects.size vs).1 vs := by
  match vs with
  | [] => exact .nil
  | v :: vs =>
    have hv := (depicts_place hn v).extend
      (Value.placeAll (h.objects.size + (v.place h.objects.size).2.length) vs).2
    have hvs := depicts_placeAll (hn.extend (v.place h.objects.size).2) vs
    rw [extend_extend] at hv
    rw [size_objects_extend, extend_extend] at hvs
    exact .cons hv hvs
termination_by structural vs
end

end Heap

end CountedLisp
