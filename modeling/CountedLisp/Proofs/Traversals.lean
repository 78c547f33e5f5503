import CountedLisp.Proofs.ListAccess

/-!
# Traversals that end

Following the right sides of pairs and printing an object go down to a depth that depends on the
number of objects in the heap. A way down on which no object is met twice is not longer than that
(`Heap.Way`), and so the depth is enough for every object from which no cycle of pairs and vectors
can be reached: its chain of pairs has an end (`follow_ne_endless`), and it has a written form
(`isSome_print`). From every other object printing goes round in a cycle (`print?_eq_none_iff`).

Every access to lists therefore has a result on such an object, whether it is a list or not.
-/

namespace CountedLisp

open Run

/-- The objects that an object is made of. -/
def Payload.parts : Payload → List Ref
  | .pair left right => [left, right]
  | .vector items => items
  | .constant _ | .emptyList | .lambda _ | .thunk _ | .unspecified => []

namespace Heap

variable {h : Heap} {r s : Ref} {seen : List ObjectId}

/-- A pair or a vector, living or dead, has something as one of its parts. -/
def Contains (h : Heap) (r s : Ref) : Prop :=
  ∃ o, h.get? r = some o ∧ s ∈ o.payload.parts

/-- No cycle of pairs and vectors can be reached from a reference. -/
def Acyclic (h : Heap) (r : Ref) : Prop :=
  ∀ s, Relation.ReflTransGen h.Contains r s → ¬Relation.TransGen h.Contains s s

theorem Acyclic.part (ha : h.Acyclic r) (hs : h.Contains r s) : h.Acyclic s := fun t ht =>
  ha t (.head hs ht)

/-- Every object comes after its parts. -/
def descends (h : Heap) : Bool :=
  (List.range h.objects.size).all fun i =>
    (h.object? ⟨i⟩).all fun o => o.payload.parts.all fun s => s.all fun id => id.index < i

/-- Where every object comes after its parts, there is no cycle. -/
theorem acyclic_of_descends (hd : h.descends = true) (r : Ref) : h.Acyclic r := by
  have hless : ∀ {r s : Ref}, h.Contains r s → s.elim 0 (·.index + 1) < r.elim 0 (·.index + 1) := by
    rintro r s ⟨o, hget, hs⟩
    obtain ⟨id, rfl, ho⟩ := Option.bind_eq_some_iff.1 hget
    cases s with
    | none => exact Nat.succ_pos _
    | some id' =>
      have hall := List.all_eq_true.1 hd id.index (List.mem_range.2 (lt_size_of_object? ho))
      have hid : h.object? ⟨id.index⟩ = some o := ho
      rw [hid, Option.all_some] at hall
      have hlt := List.all_eq_true.1 hall _ hs
      rw [Option.all_some, decide_eq_true_eq] at hlt
      exact Nat.succ_lt_succ hlt
  have hpath : ∀ {r s : Ref}, Relation.TransGen h.Contains r s →
      s.elim 0 (·.index + 1) < r.elim 0 (·.index + 1) := by
    intro r s hrs
    induction hrs with
    | single hstep => exact hless hstep
    | tail _ hstep ih => exact (hless hstep).trans ih
  intro s _ hcycle
  exact lt_irrefl _ (hpath hcycle)

/-! ### The way down -/

/-- Different objects of the heap on the way to what a reference points to. -/
structure Way (h : Heap) (seen : List ObjectId) (r : Ref) : Prop where
  nodup : seen.Nodup
  object : ∀ id ∈ seen, id.index < h.objects.size
  leads : ∀ id ∈ seen, Relation.TransGen h.Contains (some id) r

theorem way_nil (h : Heap) (r : Ref) : h.Way [] r :=
  ⟨List.nodup_nil, by simp, by simp⟩

/-- One step further, to a part of an object. The object itself has not been met before, because
there is no cycle. -/
theorem Way.part {id : ObjectId} {o : Object} (hw : h.Way seen (some id))
    (ha : h.Acyclic (some id)) (ho : h.object? id = some o) (hs : s ∈ o.payload.parts) :
    h.Way (id :: seen) s where
  nodup := List.nodup_cons.2 ⟨fun hid => ha _ .refl (hw.leads id hid), hw.nodup⟩
  object := by
    intro id' hid'
    rcases List.mem_cons.1 hid' with rfl | hid'
    · exact lt_size_of_object? ho
    · exact hw.object id' hid'
  leads := by
    have hstep : h.Contains (some id) s := ⟨o, ho, hs⟩
    intro id' hid'
    rcases List.mem_cons.1 hid' with rfl | hid'
    · exact .single hstep
    · exact (hw.leads id' hid').tail hstep

/-- There are no more objects on the way than in the heap. -/
theorem Way.length_le (hw : h.Way seen r) : seen.length ≤ h.objects.size := by
  have hnodup : (seen.map ObjectId.index).Nodup := by
    refine hw.nodup.map fun a b hab => ?_
    cases a
    cases b
    exact congrArg _ hab
  have hsub : seen.map ObjectId.index ⊆ List.range h.objects.size := by
    intro i hi
    obtain ⟨id, hid, rfl⟩ := List.mem_map.1 hi
    exact List.mem_range.2 (hw.object id hid)
  have hle := (List.subperm_of_subset hnodup hsub).length_le
  rwa [List.length_map, List.length_range] at hle

/-! ### Following and printing -/

/-- A chain of pairs without a cycle has an end. -/
theorem follow_ne_endless (ha : h.Acyclic r) (hw : h.Way seen r) {depth : Nat}
    (hdepth : h.objects.size < seen.length + depth) : h.follow depth r ≠ .endless := by
  induction depth generalizing r seen with
  | zero => exact absurd hw.length_le (by omega)
  | succ d ih =>
    rw [follow]
    split
    · exact Spine.noConfusion
    · next refs left right hget =>
      obtain ⟨id, rfl, ho⟩ := Option.bind_eq_some_iff.1 hget
      have hright : right ∈ (Payload.pair left right).parts := by simp [Payload.parts]
      have hrest := ih (ha.part ⟨_, hget, hright⟩) (hw.part ha ho hright)
        (by rw [List.length_cons]; omega)
      cases hf : h.follow d right with
      | proper items => exact Spine.noConfusion
      | improper => exact Spine.noConfusion
      | endless => exact absurd hf hrest
    · exact Spine.noConfusion

theorem isSome_mapM {α β : Type} {f : α → Option β} {l : List α}
    (hf : ∀ a ∈ l, (f a).isSome) : (l.mapM f).isSome := by
  induction l with
  | nil => rfl
  | cons a l ih =>
    obtain ⟨b, hb⟩ := Option.isSome_iff_exists.1 (hf a List.mem_cons_self)
    obtain ⟨bs, hbs⟩ := Option.isSome_iff_exists.1 (ih fun a ha => hf a (List.mem_cons_of_mem _ ha))
    simp [hb, hbs]

/-- All parts of an object have a written form, by themselves and as the tail of a list. -/
def PartsPrint (h : Heap) (depth : Nat) (r : Ref) : Prop :=
  ∀ s, h.Contains r s → (h.print depth s).isSome ∧ (h.printRest depth s).isSome

theorem PartsPrint.print {depth : Nat} (hparts : h.PartsPrint depth r) :
    (h.print (depth + 1) r).isSome := by
  rw [Heap.print]
  cases hget : h.get? r with
  | none => rfl
  | some o =>
    dsimp only
    cases hp : o.payload with
    | pair left right =>
      have hleft := (hparts left ⟨o, hget, by simp [hp, Payload.parts]⟩).1
      have hright := (hparts right ⟨o, hget, by simp [hp, Payload.parts]⟩).2
      obtain ⟨first, hfirst⟩ := Option.isSome_iff_exists.1 hleft
      obtain ⟨rest, hrest⟩ := Option.isSome_iff_exists.1 hright
      simp [hfirst, hrest]
    | vector items =>
      have hitems : (items.mapM (h.print depth)).isSome := isSome_mapM fun item hitem =>
        (hparts item ⟨o, hget, by rw [hp]; exact hitem⟩).1
      obtain ⟨texts, htexts⟩ := Option.isSome_iff_exists.1 hitems
      simp [htexts]
    | constant c => rfl
    | emptyList => rfl
    | lambda p => rfl
    | thunk t => rfl
    | unspecified => rfl

theorem PartsPrint.printRest {depth : Nat} (hparts : h.PartsPrint depth r)
    (hself : (h.print depth r).isSome) : (h.printRest (depth + 1) r).isSome := by
  rw [Heap.printRest]
  split
  · next left right hget =>
    have hleft := (hparts left ⟨_, hget, by simp [Payload.parts]⟩).1
    have hright := (hparts right ⟨_, hget, by simp [Payload.parts]⟩).2
    obtain ⟨item, hitem⟩ := Option.isSome_iff_exists.1 hleft
    obtain ⟨rest, hrest⟩ := Option.isSome_iff_exists.1 hright
    simp [hitem, hrest]
  · rfl
  · obtain ⟨last, hlast⟩ := Option.isSome_iff_exists.1 hself
    simp [hlast]

/-- **An object without a cycle has a written form.** An object of the way is met twice at most: as
the tail of a list, and by itself. -/
theorem isSome_print (depth : Nat) : ∀ {r : Ref} {seen : List ObjectId}, h.Acyclic r →
    h.Way seen r →
    (2 * h.objects.size + 1 ≤ 2 * seen.length + depth → (h.print depth r).isSome) ∧
    (2 * h.objects.size + 2 ≤ 2 * seen.length + depth → (h.printRest depth r).isSome) := by
  induction depth with
  | zero =>
    intro r seen _ hw
    have := hw.length_le
    exact ⟨fun hdepth => absurd hdepth (by omega), fun hdepth => absurd hdepth (by omega)⟩
  | succ d ih =>
    intro r seen ha hw
    -- the parts of an object have it on their way, which makes up for the step
    have hparts : 2 * h.objects.size + 1 ≤ 2 * seen.length + (d + 1) → h.PartsPrint d r := by
      intro hdepth s hs
      obtain ⟨o, hget, hmem⟩ := hs
      obtain ⟨id, rfl, ho⟩ := Option.bind_eq_some_iff.1 hget
      have hpart := ih (ha.part ⟨o, hget, hmem⟩) (hw.part ha ho hmem)
      rw [List.length_cons] at hpart
      exact ⟨hpart.1 (by omega), hpart.2 (by omega)⟩
    refine ⟨fun hdepth => (hparts hdepth).print, fun hdepth => ?_⟩
    have hself : (h.print d r).isSome := (ih ha hw).1 (by omega)
    exact (hparts (by omega)).printRest hself

theorem exists_describe (ha : h.Acyclic r) : ∃ t, h.describe? r = some t := by
  have hprint : (h.print? r).isSome :=
    (isSome_print _ ha (h.way_nil r)).1 (by rw [List.length_nil]; omega)
  obtain ⟨t, ht⟩ := Option.isSome_iff_exists.1 hprint
  unfold describe?
  cases h.get? r with
  | none => exact ⟨_, rfl⟩
  | some o =>
    dsimp only
    split_ifs
    · exact ⟨_, rfl⟩
    · exact ⟨_, by rw [ht, Option.map_some]⟩

/-! ### Objects without a written form -/

/-- An object whose parts reach no cycle reaches none itself. -/
theorem Acyclic.of_parts (hparts : ∀ s, h.Contains r s → h.Acyclic s) : h.Acyclic r := by
  intro t hrt hcycle
  -- the way to the cycle, or the cycle itself, leads over a part
  rcases Relation.ReflTransGen.cases_head hrt with rfl | ⟨s, hs, hst⟩
  · obtain ⟨s, hs, hsr⟩ := Relation.TransGen.head'_iff.1 hcycle
    exact hparts s hs r hsr hcycle
  · exact hparts s hs t hst hcycle

theorem isSome_of_mapM {α β : Type} {f : α → Option β} {l : List α} (hl : (l.mapM f).isSome) :
    ∀ a ∈ l, (f a).isSome := by
  induction l with
  | nil => simp
  | cons b l ih =>
    rw [List.mapM_cons] at hl
    cases hb : f b with
    | none => simp [hb] at hl
    | some c =>
      cases hbs : l.mapM f with
      | none => simp [hb, hbs] at hl
      | some cs =>
        intro a ha
        rcases List.mem_cons.1 ha with rfl | ha
        · rw [hb]; rfl
        · exact ih (by rw [hbs]; rfl) a ha

/-- What has a written form was printed with all its parts, of which the right side of a pair is
printed as the tail of a list. -/
theorem isSome_part_of_print {depth : Nat} (hs : h.Contains r s)
    (hsome : (h.print (depth + 1) r).isSome) :
    (h.print depth s).isSome ∨ (h.printRest depth s).isSome := by
  obtain ⟨o, hget, hs⟩ := hs
  rw [print, hget] at hsome
  dsimp only at hsome
  cases hp : o.payload with
  | pair left right =>
    rw [hp] at hs hsome
    obtain ⟨t, ht⟩ := Option.isSome_iff_exists.1 hsome
    obtain ⟨first, hfirst, ht⟩ := Option.bind_eq_some_iff.1 ht
    obtain ⟨rest, hrest, -⟩ := Option.bind_eq_some_iff.1 ht
    rcases List.mem_pair.1 hs with rfl | rfl
    · exact .inl (Option.isSome_of_eq_some hfirst)
    · exact .inr (Option.isSome_of_eq_some hrest)
  | vector items =>
    rw [hp] at hs hsome
    obtain ⟨t, ht⟩ := Option.isSome_iff_exists.1 hsome
    obtain ⟨texts, htexts, -⟩ := Option.bind_eq_some_iff.1 ht
    exact .inl (isSome_of_mapM (Option.isSome_of_eq_some htexts) s hs)
  | _ => simp [hp, Payload.parts] at hs

/-- The tail of a list is a pair that was printed with its parts, or printed by itself. -/
theorem isSome_part_of_printRest {depth : Nat} (hs : h.Contains r s)
    (hsome : (h.printRest (depth + 1) r).isSome) :
    (h.print depth r).isSome ∨ (h.print depth s).isSome ∨ (h.printRest depth s).isSome := by
  obtain ⟨o, hget, hs⟩ := hs
  rw [printRest] at hsome
  obtain ⟨t, ht⟩ := Option.isSome_iff_exists.1 hsome
  split at ht
  · next left right hget' =>
    obtain rfl := Option.some.inj (hget.symm.trans hget')
    obtain ⟨item, hitem, ht⟩ := Option.bind_eq_some_iff.1 ht
    obtain ⟨rest, hrest, -⟩ := Option.bind_eq_some_iff.1 ht
    rcases List.mem_pair.1 hs with rfl | rfl
    · exact .inr (.inl (Option.isSome_of_eq_some hitem))
    · exact .inr (.inr (Option.isSome_of_eq_some hrest))
  · next hget' =>
    obtain rfl := Option.some.inj (hget.symm.trans hget')
    simp [Payload.parts] at hs
  · obtain ⟨last, hlast, -⟩ := Option.bind_eq_some_iff.1 ht
    exact .inl (Option.isSome_of_eq_some hlast)

/-- What has a written form, by itself or as the tail of a list, reaches no cycle. -/
theorem acyclic_of_isSome (depth : Nat) : ∀ r : Ref,
    (h.print depth r).isSome ∨ (h.printRest depth r).isSome → h.Acyclic r := by
  induction depth with
  | zero =>
    intro r hsome
    rw [print, printRest] at hsome
    rcases hsome with hsome | hsome <;> cases hsome
  | succ d ih =>
    rintro r (hsome | hsome)
    · exact .of_parts fun s hs => ih s (isSome_part_of_print hs hsome)
    · by_cases hself : (h.print d r).isSome
      · exact ih r (.inl hself)
      · exact .of_parts fun s hs =>
          ih s ((isSome_part_of_printRest hs hsome).resolve_left hself)

/-- Exactly those objects have no written form from which a cycle of pairs and vectors can be
reached. -/
theorem print?_eq_none_iff : h.print? r = none ↔ ¬h.Acyclic r := by
  rw [← Option.not_isSome_iff_eq_none, not_iff_not]
  constructor
  · intro hsome
    exact acyclic_of_isSome _ r (.inl hsome)
  · intro ha
    exact (isSome_print _ ha (h.way_nil r)).1 (by rw [List.length_nil]; omega)

theorem not_acyclic_of_describe (hd : h.describe? r = none) : ¬h.Acyclic r := by
  intro ha
  obtain ⟨t, ht⟩ := exists_describe ha
  rw [hd] at ht
  cases ht

theorem not_acyclic_of_spine (hs : h.spine r = .endless) : ¬h.Acyclic r := fun ha =>
  follow_ne_endless ha (h.way_nil r) (by rw [List.length_nil]; omega) hs

end Heap

/-! ### Lists and other objects -/

namespace Pair

variable {w : World} {r : Ref}

/-- An object from which no cycle can be reached is a list, or it is none. -/
theorem reads_or_refuses (ha : w.heap.Acyclic r) :
    (∃ pairs items, w.heap.IsListOf r pairs items ∧ Reads r items w) ∨
      (¬∃ pairs items, w.heap.IsListOf r pairs items) ∧ Refuses r w := by
  cases hs : w.heap.spine r with
  | endless => exact absurd ha (Heap.not_acyclic_of_spine hs)
  | proper items =>
    obtain ⟨pairs, hl⟩ := Heap.isListOf_of_follow hs
    exact .inl ⟨pairs, items, hl, reads_of_spine hs⟩
  | improper =>
    obtain ⟨t, ht⟩ := Heap.exists_describe ha
    refine .inr ⟨?_, refuses_of_spine hs ht⟩
    rintro ⟨pairs, items, hl⟩
    have hf := (Heap.follow_of_isListOf hl (w.heap.objects.size + 1)).symm.trans hs
    split_ifs at hf

end Pair

namespace Client

variable {engine : Engine} {w : World}

/-- **Lists are what they are made of.** Whatever has been done so far, living objects are made
into a list of new pairs. All access to the list agrees with the objects it was made of; each pair
has one owner, and the count of each object has grown by the number of its places in the list.
Giving up the list destroys its pairs, and all else is as it was before. The list is not made if
some count would pass the maximum thereby.

All access to an object from which no cycle of pairs and vectors can be reached has a result and
changes nothing. It finds a list if there is one, and otherwise it is a mismatch of types. -/
theorem list_access (he : Lawless engine) {w₀ : World} (hw : w₀.Fresh) (deeds : List Deed)
    (hdeeds : afterDeeds engine w₀ deeds = w) :
    (∀ items, (∀ id, some id ∈ items → w.heap.Lives (.object id)) →
      (w.heap.Fits items → ∃ l w' pairs, Pair.makeList items w = .ok l w' ∧
        w'.heap.IsListOf l pairs items ∧ Pair.Reads l items w' ∧ w.heap.Adds w'.heap pairs ∧
        (∀ id ∈ pairs, ∃ o, w'.heap.object? id = some o ∧ o.refs = 1) ∧
        (∀ id o, w.heap.object? id = some o → ∃ o', w'.heap.object? id = some o' ∧
          o'.payload = o.payload ∧ o'.dead = o.dead ∧ o'.refs.toNat =
            o.refs.toNat + if o.payload.isImmortal then 0 else items.count (some id)) ∧
        w.heap.Adds (w'.release l).heap pairs ∧
        (∀ id ∈ pairs, (w'.release l).heap.Dead (.object id)) ∧
        ∀ id o, w.heap.object? id = some o → (w'.release l).heap.object? id = some o) ∧
      (¬w.heap.Fits items →
        ∃ w', Pair.makeList items w = .error (.breach Object.overflowBreach.text) w')) ∧
    ∀ r, w.heap.Acyclic r →
      (∃ pairs items, w.heap.IsListOf r pairs items ∧ Pair.Reads r items w) ∨
        (¬∃ pairs items, w.heap.IsListOf r pairs items) ∧ Pair.Refuses r w := by
  have hreclaim : w.reclaim = true := hdeeds ▸ reclaim_afterDeeds he hw deeds
  have hnil : w.heap.HasNil := hdeeds ▸ hasNil_afterDeeds he hw deeds
  have hcounts : w.heap.Counts := hdeeds ▸ counts_afterDeeds he hw deeds
  refine ⟨fun items hlive => ⟨fun hfits => ?_, Pair.makeList_overflow hreclaim hcounts hlive⟩,
    fun r => Pair.reads_or_refuses⟩
  have hroom := hfits.hasRoom hcounts hlive
  have hrelease : (World.release (Pair.link w.heap.objects.size items).1
      { w with heap := w.heap.withList items }).heap =
        w.heap.extend ((Pair.link w.heap.objects.size items).2.map Object.destroyed) :=
    (World.heap_drop (w := { w with heap := w.heap.withList items }) hreclaim _).trans
      (Heap.drop_withList hnil hroom)
  refine ⟨_, _, Pair.linkIds w.heap.objects.size items, Pair.makeList_eq hreclaim hroom,
    Heap.isListOf_withList hnil items, Pair.reads_of_spine (Heap.spine_withList hnil items),
    Heap.adds_extend_raise (Heap.adds_link items (Pair.length_link _ _)), fun id hid => ?_,
    fun id o ho => hfits.grows ho _, ?_, fun id hid => ?_, fun id o ho => ?_⟩
  · obtain ⟨left, right, hpair⟩ := Heap.object?_withList hid
    exact ⟨_, hpair, rfl⟩
  · exact hrelease ▸ Heap.adds_link items (by rw [List.length_map, Pair.length_link])
  · obtain ⟨hle, hlt⟩ := Pair.mem_linkIds.1 hid
    exact hrelease ▸ Heap.dead_extend hle (by rwa [Pair.length_link])
  · exact hrelease ▸ Heap.object?_extend_of_some _ ho

/-- A number, and a pair of it and itself. -/
def numberAndPair : List Deed :=
  [.call (.constant (.integer 7)), .call (.pair (some ⟨1⟩) (some ⟨1⟩))]

theorem list_access_numberAndPair : ∃ w,
    afterDeeds (.ofDepth 0) {} numberAndPair = w ∧
    (∃ l w' pairs, Pair.makeList [some ⟨1⟩, Heap.emptyList, some ⟨1⟩] w = .ok l w' ∧
      w'.heap.IsListOf l pairs [some ⟨1⟩, Heap.emptyList, some ⟨1⟩] ∧
      ∀ id ∈ pairs, (w'.release l).heap.Dead (.object id)) ∧
    ((∃ pairs items, w.heap.IsListOf (some ⟨2⟩) pairs items ∧ Pair.Reads (some ⟨2⟩) items w) ∨
      (¬∃ pairs items, w.heap.IsListOf (some ⟨2⟩) pairs items) ∧ Pair.Refuses (some ⟨2⟩) w) := by
  have hstart : (afterDeeds (.ofDepth 0) {} numberAndPair).heap.Lives (.object ⟨0⟩) ∧
      (afterDeeds (.ofDepth 0) {} numberAndPair).heap.Lives (.object ⟨1⟩) ∧
      (afterDeeds (.ofDepth 0) {} numberAndPair).heap.objects.toList.all
        (fun o => o.refs.toNat + 3 ≤ maxCount.toNat) = true ∧
      (afterDeeds (.ofDepth 0) {} numberAndPair).heap.descends = true := by decide +kernel
  obtain ⟨hnil, hnumber, hsmall, hdescends⟩ := hstart
  have hlives : ∀ id, some id ∈ [some ⟨1⟩, Heap.emptyList, some ⟨1⟩] →
      (afterDeeds (.ofDepth 0) {} numberAndPair).heap.Lives (.object id) := by
    intro id hid
    simp only [Heap.emptyList, List.mem_cons, Option.some.injEq, List.not_mem_nil, or_false] at hid
    rcases hid with rfl | rfl | rfl
    · exact hnumber
    · exact hnil
    · exact hnumber
  have hall := list_access (.program 0) (show World.Fresh {} from ⟨rfl, rfl, rfl, rfl⟩)
    numberAndPair rfl
  obtain ⟨l, w', pairs, hmake, hlist, -, -, -, -, -, hdead, -⟩ :=
    (hall.1 _ hlives).1 (Heap.fits_of_all hsmall)
  exact ⟨_, rfl, ⟨l, w', pairs, hmake, hlist, hdead⟩,
    hall.2 (some ⟨2⟩) (Heap.acyclic_of_descends hdescends _)⟩

end Client

end CountedLisp
