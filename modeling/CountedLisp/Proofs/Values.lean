import CountedLisp.Datum.Basic
import CountedLisp.Heap.Printer
import Mathlib.Data.List.Nodup
import Mathlib.Data.List.Perm.Subperm

/-!
# The values of objects

A value is a constant or a list of values. `Heap.Depicts` says that the object that a reference
points to has a given value: it is this constant, or it is the first pair of a list of objects with
the values of the items. An object has at most one value (`Depicts.unique`), so an object with a
value does not contain itself: on the way from an object to what it contains, values get smaller.

`Heap.print?` follows this way to a depth that depends on the number of objects in the heap. As no
object is met twice (`Trail`), the depth is enough for every object with a value, and what is
printed is what the datum with this value is written as (`print?_of_depicts`).
-/

namespace CountedLisp

/-! ### Values -/

/-- A constant or a list, with all that is in it. -/
inductive Value where
  /-- A constant. -/
  | constant (c : Constant)
  /-- A list of values. -/
  | list (items : List Value)

/-- The category of the tokens that denote a constant. -/
def Constant.kind : Constant → TokenKind
  | .integer _ => .integer
  | .double _ => .double
  | .boolean _ => .boolean
  | .char _ => .char
  | .string _ => .string

namespace Value

mutual
/-- The datum that is written like a value. Its tokens are in no place of a text. -/
def datum : Value → Datum
  | .constant c => .atom { kind := c.kind, lexeme := c.text, span := ⟨0, 0⟩ }
  | .list items => .list (data items)
termination_by structural v => v

/-- The data that are written like values. -/
def data : List Value → List Datum
  | [] => []
  | v :: vs => datum v :: data vs
termination_by structural vs => vs
end

mutual
/-- The constants in a value, in order. -/
def constants : Value → List Constant
  | .constant c => [c]
  | .list items => constantsAll items
termination_by structural v => v

/-- The constants in values, in order. -/
def constantsAll : List Value → List Constant
  | [] => []
  | v :: vs => constants v ++ constantsAll vs
termination_by structural vs => vs
end

end Value

namespace Heap

/-- A reference points to a living object with the given value. -/
inductive Depicts (h : Heap) : Ref → Value → Prop where
  /-- A constant. -/
  | constant {id : ObjectId} {o : Object} {c : Constant} (ho : h.object? id = some o)
      (hd : o.dead = false) (hp : o.payload = .constant c) : Depicts h (some id) (.constant c)
  /-- The empty list. -/
  | nil {id : ObjectId} {o : Object} (ho : h.object? id = some o)
      (hp : o.payload = .emptyList) : Depicts h (some id) (.list [])
  /-- A pair of an item and a list of further items. -/
  | cons {id : ObjectId} {o : Object} {left right : Ref} {v : Value} {vs : List Value}
      (ho : h.object? id = some o) (hd : o.dead = false) (hp : o.payload = .pair left right)
      (hv : Depicts h left v) (hvs : Depicts h right (.list vs)) :
      Depicts h (some id) (.list (v :: vs))

/-- An object has at most one value. -/
theorem Depicts.unique {h : Heap} {r : Ref} {v v' : Value} (hv : h.Depicts r v)
    (hv' : h.Depicts r v') : v = v' := by
  induction hv generalizing v' with
  | constant ho _ hp =>
    cases hv' with
    | constant ho' _ hp' => simp_all
    | nil ho' hp' => simp_all
    | cons ho' _ hp' => simp_all
  | nil ho hp =>
    cases hv' with
    | constant ho' _ hp' => simp_all
    | nil => rfl
    | cons ho' _ hp' => simp_all
  | cons ho _ hp _ _ ih ihs =>
    cases hv' with
    | constant ho' _ hp' => simp_all
    | nil ho' hp' => simp_all
    | cons ho' _ hp' hv hvs =>
      rw [ho] at ho'
      cases ho'
      rw [hp] at hp'
      cases hp'
      cases ihs hvs
      rw [ih hv]

/-- Every object with a value is in the heap. -/
theorem Depicts.exists_object {h : Heap} {r : Ref} {v : Value} (hv : h.Depicts r v) :
    ∃ id o, r = some id ∧ h.object? id = some o := by
  cases hv with
  | constant ho => exact ⟨_, _, rfl, ho⟩
  | nil ho => exact ⟨_, _, rfl, ho⟩
  | cons ho => exact ⟨_, _, rfl, ho⟩

/-! ### The way down -/

/-- Different objects on the way to an object with the value `v`: each has a greater value. -/
structure Trail (h : Heap) (seen : List ObjectId) (v : Value) : Prop where
  nodup : seen.Nodup
  greater : ∀ id ∈ seen, ∃ v', h.Depicts (some id) v' ∧ sizeOf v < sizeOf v'

theorem trail_nil (h : Heap) (v : Value) : h.Trail [] v where
  nodup := List.nodup_nil
  greater := by simp

/-- An object on the way is not met again. -/
theorem Trail.not_mem {h : Heap} {seen : List ObjectId} {v : Value} (ht : h.Trail seen v)
    {id : ObjectId} (hv : h.Depicts (some id) v) : id ∉ seen := by
  intro hid
  obtain ⟨v', hv', hlt⟩ := ht.greater id hid
  rw [hv.unique hv'] at hlt
  exact Nat.lt_irrefl _ hlt

theorem Trail.cons {h : Heap} {seen : List ObjectId} {v v' : Value} (ht : h.Trail seen v)
    {id : ObjectId} (hv : h.Depicts (some id) v) (hlt : sizeOf v' < sizeOf v) :
    h.Trail (id :: seen) v' where
  nodup := List.nodup_cons.mpr ⟨ht.not_mem hv, ht.nodup⟩
  greater := by
    intro id' hid'
    rcases List.mem_cons.mp hid' with rfl | hid'
    · exact ⟨v, hv, hlt⟩
    · obtain ⟨u, hu, hvu⟩ := ht.greater id' hid'
      exact ⟨u, hu, Nat.lt_trans hlt hvu⟩

/-- There are fewer objects on the way than in the heap. -/
theorem Trail.length_lt {h : Heap} {seen : List ObjectId} {v : Value} (ht : h.Trail seen v)
    {id : ObjectId} (hv : h.Depicts (some id) v) : seen.length < h.objects.size := by
  have hnodup : ((id :: seen).map ObjectId.index).Nodup := by
    refine List.Nodup.map (fun a b hab => ?_) (List.nodup_cons.mpr ⟨ht.not_mem hv, ht.nodup⟩)
    cases a
    cases b
    exact congrArg _ hab
  have hsub : (id :: seen).map ObjectId.index ⊆ List.range h.objects.size := by
    intro i hi
    obtain ⟨id', hid', rfl⟩ := List.mem_map.mp hi
    have hv' : ∃ v', h.Depicts (some id') v' := by
      rcases List.mem_cons.mp hid' with rfl | hid'
      · exact ⟨v, hv⟩
      · obtain ⟨u, hu, -⟩ := ht.greater id' hid'
        exact ⟨u, hu⟩
    obtain ⟨v', hv'⟩ := hv'
    obtain ⟨_, o, hid, ho⟩ := hv'.exists_object
    cases hid
    exact List.mem_range.mpr (lt_size_of_object? ho)
  have hle := (List.subperm_of_subset hnodup hsub).length_le
  rw [List.length_map, List.length_cons, List.length_range] at hle
  exact hle

/-- As long as an object has not been met, there is a step left. -/
theorem Trail.exists_depth {h : Heap} {seen : List ObjectId} {v : Value} (ht : h.Trail seen v)
    {id : ObjectId} (hv : h.Depicts (some id) v) {depth : Nat}
    (hdepth : h.objects.size ≤ seen.length + depth) : ∃ d, depth = d + 1 := by
  have hlt := ht.length_lt hv
  exact ⟨depth - 1, by omega⟩

/-! ### Printing -/

theorem print_pair {h : Heap} {id : ObjectId} {o : Object} {left right : Ref} {depth : Nat}
    {first rest : Text} (ho : h.object? id = some o) (hp : o.payload = .pair left right)
    (hfirst : h.print depth left = some first) (hrest : h.printRest depth right = some rest) :
    h.print (depth + 1) (some id) = some (Text.byte '(' :: (first ++ rest)) := by
  simp only [print, get?, Option.bind_some, ho, hp, hfirst, hrest]
  rfl

theorem printRest_pair {h : Heap} {id : ObjectId} {o : Object} {left right : Ref} {depth : Nat}
    {item rest : Text} (ho : h.object? id = some o) (hp : o.payload = .pair left right)
    (hitem : h.print depth left = some item) (hrest : h.printRest depth right = some rest) :
    h.printRest (depth + 1) (some id) = some (Text.byte ' ' :: (item ++ rest)) := by
  obtain ⟨refs, dead, payload⟩ := o
  cases hp
  simp only [printRest, get?, Option.bind_some, ho, hitem, hrest]
  rfl

theorem printRest_emptyList {h : Heap} {id : ObjectId} {o : Object} (depth : Nat)
    (ho : h.object? id = some o) (hp : o.payload = .emptyList) :
    h.printRest (depth + 1) (some id) = some [Text.byte ')'] := by
  obtain ⟨refs, dead, payload⟩ := o
  cases hp
  simp only [printRest, get?, Option.bind_some, ho]
  rfl

/-- Deep enough, an object is printed like its value, and the tail of a list is printed like the
further items. -/
theorem print_of_depicts {h : Heap} {r : Ref} {v : Value} (hv : h.Depicts r v)
    {seen : List ObjectId} (ht : h.Trail seen v) {depth : Nat}
    (hdepth : h.objects.size ≤ seen.length + depth) :
    h.print depth r = some v.datum.text ∧ ∀ vs, v = .list vs →
      h.printRest depth r = some (Datum.textRest (Value.data vs) ++ [Text.byte ')']) := by
  induction hv generalizing seen depth with
  | constant ho hd hp =>
    obtain ⟨d, rfl⟩ := ht.exists_depth (.constant ho hd hp) hdepth
    simp [print, get?, ho, hp, Value.datum, Datum.text]
  | nil ho hp =>
    obtain ⟨d, rfl⟩ := ht.exists_depth (.nil ho hp) hdepth
    constructor
    · simp only [print, get?, Option.bind_some, ho, hp]
      rfl
    · rintro _ ⟨⟩
      exact printRest_emptyList d ho hp
  | @cons id o left right v vs ho hd hp hleft hright ih ihs =>
    have hv := Depicts.cons ho hd hp hleft hright
    obtain ⟨d, rfl⟩ := ht.exists_depth hv hdepth
    -- the object itself is one more on the way to its sides
    have hless : h.objects.size ≤ (id :: seen).length + d := by
      rw [List.length_cons]
      omega
    have hfirst := (ih (ht.cons hv (by simp +arith)) hless).1
    have hrest := (ihs (ht.cons hv (by simp +arith)) hless).2 vs rfl
    constructor
    · rw [print_pair ho hp hfirst hrest]
      simp [Value.datum, Value.data, Datum.text, Datum.textItems]
    · rintro _ ⟨⟩
      rw [printRest_pair ho hp hfirst hrest]
      simp [Value.data, Datum.textRest]

/-- **An object with a value is printed** like this value. -/
theorem print?_of_depicts {h : Heap} {r : Ref} {v : Value} (hv : h.Depicts r v) :
    h.print? r = some v.datum.text :=
  (print_of_depicts hv (trail_nil h v) (by rw [List.length_nil]; omega)).1

end Heap

end CountedLisp
