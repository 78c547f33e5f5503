import CountedLisp.Proofs.Judgement
import CountedLisp.Store.Pair
import CountedLisp.Store.Slots

/-!
# Reading objects

All access to the values of objects only reads (`Run.Reads`): it changes nothing and gives the same
where nothing is destroyed, provided that the object it starts from lives. A failure on the way
shows the object that it found, and a living object is not shown as a destroyed one.

The `_ok` lemmas say what was found. All access to lists, which goes by four different loops, is the
same as reading the items once (`Pair.items?`) and answering from them.
-/

namespace CountedLisp

open Run

variable {P : Prop} {C S : Share} {w : World} {r : Ref}

namespace Object

/-! ### Descriptions -/

theorem reads_describe (hb : w.Books C) (hr : w.Sees S (Share.ref r)) :
    (describe r).Reads P S w := by
  refine .get_bind (.orExhausted _) fun _ u hm ht hS => ?_
  rw [hm.heap.describe? (hb.closed ht.wrapped) (hr ht hS)]

theorem reads_print (hb : w.Books C) (hr : w.Sees S (Share.ref r)) : (print r).Reads P S w := by
  refine .get_bind (.orExhausted _) fun _ u hm ht hS => ?_
  rw [hm.heap.print? (hb.closed ht.wrapped) (hr ht hS)]

/-- Describing something changes nothing. -/
theorem describe_ok {t : Text} {w' : World} (h : describe r w = .ok t w') :
    w.heap.describe? r = some t := by
  have hx : Run.orExhausted (w.heap.describe? r) w = .ok t w' := h
  cases hd : w.heap.describe? r with
  | none => rw [hd] at hx; cases hx
  | some t' => rw [hd] at hx; cases hx; rfl

/-- A living object is not described as a destroyed one. -/
theorem describe?_living {h : Heap} {t : Text} (hr : h.Keeps (Share.ref r))
    (ht : h.describe? r = some t) : (Text.ofString "released ").isPrefixOf t = false := by
  cases r with
  | none =>
    cases ht
    rfl
  | some id =>
    obtain ⟨o, ho, hd⟩ := Heap.keeps_ref_some.mp hr
    have hg : h.get? (some id) = some o := ho
    simp only [Heap.describe?, hg, hd, Bool.false_eq_true, if_false, Option.map_eq_some_iff] at ht
    obtain ⟨p, -, rfl⟩ := ht
    -- the description starts with the name of the type
    cases o.tag <;> rfl

/-- A report that shows a living object, and that did not expect one to live. -/
theorem reportsLoss_of_living {op expected t : Text} {h : Heap} (hr : h.Keeps (Share.ref r))
    (ht : h.describe? r = some t) (he : (Text.ofString "live ").isPrefixOf expected = false) :
    (Failure.of .typeMismatch op expected t).reportsLoss = false := by
  simp [Failure.reportsLoss, Failure.chain, Failure.of, Failure.report?, Report.reportsLoss, he,
    describe?_living hr ht]

/-- The report of a mismatch shows a living object. -/
theorem reads_mismatch {α : Type} {op expected : Text} (hb : w.Books C)
    (hr : w.Sees S (Share.ref r)) (he : (Text.ofString "live ").isPrefixOf expected = false) :
    (mismatch op expected r : Run α).Reads P S w :=
  (reads_describe hb hr).andThen fun h =>
    .fail fun _ ht hS => reportsLoss_of_living (hr ht hS) (describe_ok h) he

/-! ### Objects of a type -/

theorem isPrefixOf_live_name (tag : Tag) :
    (Text.ofString "live ").isPrefixOf tag.name = false := by
  cases tag <;> rfl

theorem expect_none (op : Text) (tag : Tag) (h : w.heap.get? r = none) :
    expect op tag r w = .error (.failure (.of .typeMismatch op tag.name "nil")) w := by
  unfold expect
  rw [get_bind, h]
  rfl

/-- A destroyed object is reported as such, whatever its type. -/
theorem expect_dead (op : Text) (tag : Tag) {o : Object} (h : w.heap.get? r = some o)
    (hd : o.dead = true) : expect op tag r w = .error (.failure
      (.of .typeMismatch op ("live " ++ tag.name) ("released " ++ o.tag.name))) w := by
  unfold expect
  rw [get_bind, h]
  simp only [hd, if_true]
  rfl

theorem expect_self (op : Text) {o : Object} (h : w.heap.get? r = some o) (hd : o.dead = false) :
    expect op o.tag r w = .ok o w := by
  unfold expect
  rw [get_bind, h]
  simp only [hd, Bool.false_eq_true, if_false, if_true]
  rfl

theorem expect_other (op : Text) {tag : Tag} {o : Object} (h : w.heap.get? r = some o)
    (hd : o.dead = false) (ht : o.tag ≠ tag) :
    expect op tag r w = (mismatch op tag.name r : Run Object) w := by
  unfold expect
  rw [get_bind, h]
  simp only [hd, Bool.false_eq_true, if_false, ht]

theorem mismatch_ne_ok {α : Type} {op expected : Text} {a : α} {w' : World} :
    (mismatch op expected r : Run α) w ≠ .ok a w' := by
  intro h
  obtain ⟨t, w1, -, h⟩ := of_bind_ok h
  cases h

theorem sound_mismatch {α : Type} {op expected : Text} {G : α → Share} {B : Share}
    (hb : w.Books (B + C)) (hr : w.Sees S (Share.ref r))
    (he : (Text.ofString "live ").isPrefixOf expected = false) :
    (mismatch op expected r : Run α).Sound P C S w G B :=
  (reads_mismatch hb hr he).sound hb fun h => absurd h mismatch_ne_ok

/-- A type check that succeeds gives the object, which lives and has the type. -/
theorem expect_ok {op : Text} {tag : Tag} {o : Object} {w' : World}
    (h : expect op tag r w = .ok o w') :
    w' = w ∧ w.heap.get? r = some o ∧ o.dead = false ∧ o.tag = tag := by
  cases ho : w.heap.get? r with
  | none => rw [expect_none op tag ho] at h; cases h
  | some o' =>
    cases hd : o'.dead with
    | true => rw [expect_dead op tag ho hd] at h; cases h
    | false =>
      by_cases ht : o'.tag = tag
      · subst ht
        rw [expect_self op ho hd] at h
        cases h
        exact ⟨rfl, rfl, hd, rfl⟩
      · rw [expect_other op ho hd ht] at h
        exact absurd h mismatch_ne_ok

/-- Reading an object of a type, of which anything but the count may be used. -/
theorem reads_expect {α : Type} {op : Text} {tag : Tag} {k : Object → Run α} (hb : w.Books C)
    (hr : w.Sees S (Share.ref r))
    (hk : ∀ o, w.heap.get? r = some o → o.dead = false → o.tag = tag → (k o).Reads P S w)
    (hn : ∀ o n, k { o with refs := n } = k o) : (expect op tag r >>= k).Reads P S w := by
  cases ho : w.heap.get? r with
  | none =>
    refine Reads.congr (.fail fun _ _ _ => ?_) (bind_error (expect_none op tag ho))
      fun _ u hm ht hS => bind_error (expect_none op tag ?_)
    · cases tag <;> rfl
    · obtain ⟨-, h2⟩ | ⟨o, n, h1, -, -⟩ := hm.heap.get? (hr ht hS)
      · exact h2
      · rw [ho] at h1
        cases h1
  | some o =>
    cases hd : o.dead with
    | true =>
      -- this does not happen to an object that lives
      have hno : w.conduct.Tame → w.heap.Keeps S → False := fun ht hS => by
        obtain ⟨id, rfl, ho'⟩ := Heap.get?_eq_some ho
        exact (Heap.keeps_ref_some.mp (hr ht hS)).not_dead ⟨o, ho', hd⟩
      exact Reads.congr (.fail fun _ ht hS => (hno ht hS).elim)
        (bind_error (expect_dead op tag ho hd)) fun _ _ _ ht hS => (hno ht hS).elim
    | false =>
      -- the mirror has the same object with some other count
      have hmirror : ∀ u, w.Mirrors u → w.conduct.Tame → w.heap.Keeps S →
          ∃ n, u.heap.get? r = some { o with refs := n } := fun u hm ht hS => by
        obtain ⟨h1, -⟩ | ⟨o', n, h1, -, h2⟩ := hm.heap.get? (hr ht hS)
        · rw [ho] at h1
          cases h1
        · rw [ho, Option.some.injEq] at h1
          subst h1
          exact ⟨n, h2⟩
      by_cases htag : o.tag = tag
      · subst htag
        refine (hk o ho hd rfl).congr (bind_ok (expect_self op ho hd)) fun _ u hm ht hS => ?_
        obtain ⟨n, hu⟩ := hmirror u hm ht hS
        have hx : expect op o.tag r u = .ok { o with refs := n } u := expect_self op hu hd
        rw [bind_ok hx, hn]
      · -- an object of another type, which both worlds show in the same way
        have hact : ∀ u n, u.heap.get? r = some { o with refs := n } →
            (expect op tag r >>= k) u = (mismatch op tag.name r : Run α) u := fun u n hu => by
          have hx := expect_other op hu hd htag
          unfold mismatch at hx ⊢
          cases hy : describe r u with
          | ok t w1 =>
            rw [bind_ok hy] at hx
            rw [bind_error hx, bind_ok hy]
            rfl
          | error e w1 =>
            rw [bind_error hy] at hx
            rw [bind_error hx, bind_error hy]
        refine (reads_mismatch hb hr (isPrefixOf_live_name tag)).congr (hact w o.refs ho)
          fun _ u hm ht hS => ?_
        obtain ⟨n, hu⟩ := hmirror u hm ht hS
        exact hact u n hu

/-! ### Values -/

theorem reads_integerValue (hb : w.Books C) (hr : w.Sees S (Share.ref r)) :
    (integerValue r).Reads P S w :=
  reads_expect hb hr (fun o _ _ _ => by split <;> exact .pure _) fun _ _ => rfl

theorem reads_stringValue (hb : w.Books C) (hr : w.Sees S (Share.ref r)) :
    (stringValue r).Reads P S w :=
  reads_expect hb hr (fun o _ _ _ => by split <;> exact .pure _) fun _ _ => rfl

theorem reads_numericValue (hb : w.Books C) (hr : w.Sees S (Share.ref r)) :
    (numericValue r).Reads P S w := by
  refine .get_bind ?_ fun _ u hm ht hS => by rw [hm.heap.number? (hr ht hS)]
  split
  · exact .pure _
  · exact reads_mismatch hb hr rfl

/-- The truth of something is asked without describing it. -/
theorem reads_truthy (hr : w.Sees S (Share.ref r)) : (truthy r).Reads P S w := by
  refine .get_bind ?_ fun _ u hm ht hS => ?_
  · split
    · exact .fail fun _ _ _ => rfl
    · split
      · exact .fail fun _ _ _ => rfl
      · exact .pure _
      · exact .pure _
  · obtain ⟨h1, h2⟩ | ⟨o, n, h1, -, h2⟩ := hm.heap.get? (hr ht hS) <;> rw [h1, h2]

end Object

namespace Pair

variable {op : Text} {w' : World}

/-! ### Pairs -/

theorem reads_sides (hb : w.Books C) (hr : w.Sees S (Share.ref r)) : (sides op r).Reads P S w :=
  Object.reads_expect hb hr (fun o _ _ _ => by split <;> exact .pure _) fun _ _ => rfl

/-- The sides are those of a living pair. -/
theorem sides_ok {p : Ref × Ref} (h : sides op r w = .ok p w') :
    w' = w ∧ ∃ o, w.heap.get? r = some o ∧ o.dead = false ∧ o.payload = .pair p.1 p.2 := by
  obtain ⟨o, w1, hx, h⟩ := of_bind_ok h
  obtain ⟨rfl, ho, hd, htag⟩ := Object.expect_ok hx
  obtain ⟨refs, dead, payload⟩ := o
  cases payload with
  | pair left right =>
    cases h
    exact ⟨rfl, _, ho, hd, rfl⟩
  | constant c => cases c <;> cases htag
  | _ => cases htag

theorem reads_left (hb : w.Books C) (hr : w.Sees S (Share.ref r)) : (left r).Reads P S w :=
  (reads_sides hb hr).map _

theorem reads_right (hb : w.Books C) (hr : w.Sees S (Share.ref r)) : (right r).Reads P S w :=
  (reads_sides hb hr).map _

/-- What a pair owns lives as long as the pair. -/
theorem sees_sides (hb : w.Books C) {p : Ref × Ref} (h : sides op r w = .ok p w') :
    w.Sees S (Share.ref p.1 + Share.ref p.2) := by
  obtain ⟨-, o, ho, hd, hp⟩ := sides_ok h
  have := hb.sees_owned S ho hd
  rwa [hp, Share.owned_pair] at this

theorem sees_left (hb : w.Books C) {v : Ref} (h : left r w = .ok v w') :
    w.Sees S (Share.ref v) := by
  obtain ⟨p, w1, hx, h⟩ := of_bind_ok h
  cases h
  exact (sees_sides hb hx).mono (Multiset.subset_of_le (Multiset.le_add_right _ _))

theorem sees_right (hb : w.Books C) {v : Ref} (h : right r w = .ok v w') :
    w.Sees S (Share.ref v) := by
  obtain ⟨p, w1, hx, h⟩ := of_bind_ok h
  cases h
  exact (sees_sides hb hx).mono (Multiset.subset_of_le (Multiset.le_add_left _ _))

/-! ### Lists by their items -/

/-- The items of a list, or nothing if the object is no list. -/
def items? (r : Ref) : Run (Option (List Ref)) := do
  match (← get).heap.spine r with
  | .proper items => return some items
  | .improper => return none
  | .endless => throw .exhausted

/-- The items of a list, for the given operation. -/
def itemsFor (op : Text) (r : Ref) : Run (List Ref) := do
  match ← items? r with
  | some items => return items
  | none => Object.mismatch op "list" r

theorem items?_eq (r : Ref) (w : World) :
    items? r w =
      match w.heap.spine r with
      | .proper items => .ok (some items) w
      | .improper => .ok none w
      | .endless => .error .exhausted w := by
  rw [items?, get_bind]
  cases w.heap.spine r <;> rfl

theorem isList_eq (r : Ref) : isList r = do return (← items? r).isSome := by
  funext w
  have hitems := items?_eq r w
  rw [Heap.spine] at hitems
  rw [isList, along, get_bind, w.heap.isList?_eq]
  cases hf : w.heap.follow (w.heap.objects.size + 1) r with
  | proper items =>
    rw [hf] at hitems
    rw [bind_ok hitems]
    rfl
  | improper =>
    rw [hf] at hitems
    rw [bind_ok hitems]
    rfl
  | endless =>
    rw [hf] at hitems
    rw [bind_error hitems]
    rfl

/-- Two ways to go on from the items of a list that end in the same way. -/
theorem items?_bind_congr {α : Type} {r : Ref} {k k' : Option (List Ref) → Run α}
    (hsome : ∀ w items, w.heap.spine r = .proper items → k (some items) w = k' (some items) w)
    (hnone : k none = k' none) : items? r >>= k = items? r >>= k' := by
  funext w
  have hitems := items?_eq r w
  cases hs : w.heap.spine r with
  | proper items =>
    rw [hs] at hitems
    rw [bind_ok hitems, bind_ok hitems]
    exact hsome w items hs
  | improper =>
    rw [hs] at hitems
    rw [bind_ok hitems, bind_ok hitems]
    exact congrFun hnone w
  | endless =>
    rw [hs] at hitems
    rw [bind_error hitems, bind_error hitems]

/-- What a loop finds that has a result along a list. -/
theorem along_ok {α : Type} {r : Ref} (loop : Heap → Nat → Ref → Option α) {w : World} {a : α}
    (h : loop w.heap (w.heap.objects.size + 1) r = some a) : along r loop w = .ok a w := by
  rw [along, get_bind, h]
  rfl

theorem mismatch_bind {α β : Type} (op expected : Text) (r : Ref) (k : α → Run β) :
    Object.mismatch op expected r >>= k = Object.mismatch op expected r := by
  funext w
  simp only [Object.mismatch, bind, EStateM.bind]
  cases Object.describe r w <;> rfl

theorem length_eq (r : Ref) : length r = do return (← itemsFor "length" r).length := by
  simp only [length, isList_eq, itemsFor, bind_assoc, pure_bind]
  refine items?_bind_congr (fun w items hs => ?_) (mismatch_bind _ _ _ _).symm
  have hcount := along_ok (fun h => h.countPairs? 0) (Heap.countPairs?_of_follow hs 0)
  rwa [Nat.zero_add] at hcount

theorem length_of_proper {r : Ref} {w : World} {items : List Ref}
    (hs : w.heap.spine r = .proper items) : length r w = .ok items.length w := by
  have hitems : items? r w = .ok (some items) w := by rw [items?_eq, hs]
  rw [length_eq, itemsFor, bind_assoc, bind_ok hitems]
  rfl

theorem items_eq (r : Ref) : items r = itemsFor "length" r := by
  simp only [items, length_eq, itemsFor, bind_assoc, pure_bind]
  refine items?_bind_congr (fun w items hs => ?_) (mismatch_bind _ _ _ _)
  exact along_ok (fun h => h.lefts? []) (Heap.lefts?_of_follow hs [])

theorem item_eq (r : Ref) (i : Int) : item r i = (do
    let items ← itemsFor "list-ref" r
    match if 0 ≤ i then items[i.toNat]? else none with
    | some v => return v
    | none =>
      Run.fail (.of .indexOutOfRange "list-ref" "index < length"
        ("index " ++ Text.ofInt i ++ " of length " ++ Text.ofNat items.length))) := by
  simp only [item, isList_eq, itemsFor, bind_assoc, pure_bind]
  refine items?_bind_congr (fun w items hs => ?_) (mismatch_bind _ _ _ _).symm
  have houtside : noItem r i w = Run.fail (.of .indexOutOfRange "list-ref" "index < length"
      ("index " ++ Text.ofInt i ++ " of length " ++ Text.ofNat items.length)) w := by
    rw [noItem, bind_ok (length_of_proper hs)]
  simp only [Option.isSome_some, if_true, pure_bind]
  split_ifs with hi
  · have hleft := Heap.leftAt?_of_follow hs i.toNat 0
    rw [Nat.zero_add] at hleft
    have hfound : along r (fun h => h.leftAt? i.toNat 0) w = .ok items[i.toNat]? w :=
      along_ok _ hleft
    rw [bind_ok hfound]
    cases items[i.toNat]? with
    | some v => rfl
    | none => exact houtside
  · exact houtside

/-- Going on with the items of what is a list. -/
theorem if_isList_eq {α : Type} (r : Ref) (k : List Ref → Run α) (other : Run α) :
    (do if ← isList r then k (← items r) else other) = (do
      match ← items? r with
      | some items => k items
      | none => other) := by
  simp only [isList_eq, bind_assoc, pure_bind]
  refine items?_bind_congr (fun w items hs => ?_) rfl
  have hitems : Pair.items r w = .ok items w := by
    simp only [items_eq, itemsFor, bind, EStateM.bind, items?_eq, hs]
    rfl
  simp only [Option.isSome_some, if_true, bind, EStateM.bind, hitems]

/-! ### Lists -/

theorem reads_items? (hb : w.Books C) (hr : w.Sees S (Share.ref r)) : (items? r).Reads P S w := by
  refine .get_bind ?_ fun _ u hm ht hS => by
    rw [hm.heap.spine (hb.closed ht.wrapped) (hr ht hS)]
  split
  · exact .pure _
  · exact .pure _
  · exact .orExhausted none

theorem items?_ok {items : Option (List Ref)} (h : items? r w = .ok items w') :
    ∀ l, items = some l → w.heap.spine r = .proper l := by
  intro l hl
  rw [items?_eq] at h
  cases hs : w.heap.spine r with
  | proper items' => rw [hs] at h; cases h; cases hl; rfl
  | improper => rw [hs] at h; cases h; cases hl
  | endless => rw [hs] at h; cases h

/-- The items of a list live. -/
theorem sees_items? (hb : w.Books C) {items : List Ref} (h : items? r w = .ok (some items) w') :
    w.Sees S (Share.refs items) := fun ht _ =>
  (hb.closed ht.wrapped).follow _ (items?_ok h items rfl)

theorem reads_itemsFor (hb : w.Books C) (hr : w.Sees S (Share.ref r)) :
    (itemsFor op r).Reads P S w := by
  refine (reads_items? hb hr).andThen fun {items} _ => ?_
  cases items with
  | some items => exact .pure items
  | none => exact Object.reads_mismatch hb hr rfl

theorem sees_itemsFor (hb : w.Books C) {items : List Ref} (h : itemsFor op r w = .ok items w') :
    w.Sees S (Share.refs items) := by
  obtain ⟨found, w1, hx, h⟩ := of_bind_ok h
  cases found with
  | some items' => cases h; exact sees_items? hb hx
  | none => exact absurd h Object.mismatch_ne_ok

theorem reads_length (hb : w.Books C) (hr : w.Sees S (Share.ref r)) :
    (length r).Reads P S w := by
  rw [length_eq]
  exact (reads_itemsFor hb hr).map _

theorem reads_isList (hb : w.Books C) (hr : w.Sees S (Share.ref r)) :
    (isList r).Reads P S w := by
  rw [isList_eq]
  exact (reads_items? hb hr).map _

theorem reads_item (i : Int) (hb : w.Books C) (hr : w.Sees S (Share.ref r)) :
    (item r i).Reads P S w := by
  rw [item_eq]
  refine (reads_itemsFor hb hr).andThen fun {items} _ => ?_
  split
  · exact .pure _
  · exact .fail fun _ _ _ => rfl

/-- An item of a list is owned by one of its pairs. -/
theorem sees_item {i : Int} (hb : w.Books C) {v : Ref} (h : item r i w = .ok v w') :
    w.Sees S (Share.ref v) := by
  rw [item_eq] at h
  obtain ⟨items, w1, hx, h⟩ := of_bind_ok h
  cases hf : (if 0 ≤ i then items[i.toNat]? else none) with
  | none => rw [hf] at h; cases h
  | some v' =>
    rw [hf] at h
    cases h
    refine (sees_itemsFor hb hx).mono fun x hx => Share.mem_refs.mpr ⟨v, ?_, hx⟩
    split at hf
    · exact List.mem_of_getElem? hf
    · cases hf

end Pair

namespace Slots

variable {op : Text} {w' : World}

/-! ### Vectors -/

theorem reads_contents (hb : w.Books C) (hr : w.Sees S (Share.ref r)) :
    (contents op r).Reads P S w :=
  Object.reads_expect hb hr (fun o _ _ _ => by split <;> exact .pure _) fun _ _ => rfl

/-- The items are those of a living vector. -/
theorem contents_ok {items : List Ref} (h : contents op r w = .ok items w') :
    w' = w ∧ ∃ o, w.heap.get? r = some o ∧ o.dead = false ∧ o.payload = .vector items := by
  obtain ⟨o, w1, hx, h⟩ := of_bind_ok h
  obtain ⟨rfl, ho, hd, htag⟩ := Object.expect_ok hx
  obtain ⟨refs, dead, payload⟩ := o
  cases payload with
  | vector items =>
    cases h
    exact ⟨rfl, _, ho, hd, rfl⟩
  | constant c => cases c <;> cases htag
  | _ => cases htag

theorem reads_length (hb : w.Books C) (hr : w.Sees S (Share.ref r)) : (length r).Reads P S w :=
  (reads_contents hb hr).map _

theorem reads_item (i : Int) (hb : w.Books C) (hr : w.Sees S (Share.ref r)) :
    (item r i).Reads P S w := by
  refine (reads_contents hb hr).andThen fun {items} _ => ?_
  dsimp only
  split
  · exact .pure _
  · exact .fail fun _ _ _ => rfl

/-- What a vector owns lives as long as the vector. -/
theorem sees_item {i : Int} (hb : w.Books C) {v : Ref} (h : item r i w = .ok v w') :
    w.Sees S (Share.ref v) := by
  obtain ⟨items, w1, hx, h⟩ := of_bind_ok h
  cases hf : (if 0 ≤ i then items[i.toNat]? else none) with
  | none => rw [hf] at h; cases h
  | some v' =>
    rw [hf] at h
    cases h
    obtain ⟨-, o, ho, hd, hp⟩ := contents_ok hx
    have hitems := hb.sees_owned S ho hd
    rw [hp, Share.owned_vector] at hitems
    refine hitems.mono fun x hx => Share.mem_refs.mpr ⟨v, ?_, hx⟩
    split at hf
    · exact List.mem_of_getElem? hf
    · cases hf

end Slots

end CountedLisp
