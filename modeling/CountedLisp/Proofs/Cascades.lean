import CountedLisp.Proofs.Closing
import CountedLisp.Proofs.Lifetimes

/-!
# Giving up a reference

Giving up one reference may lead to others being given up. `Heap.Cascade` is the way in which this
goes on, one reference after the other, on any heap whatsoever: counts may be wrong, and what owns
what may go in circles. It always comes to an end (`Heap.exists_cascade`), after no more steps than
there are references (`Cascade.length_given`).

A step takes one off the count that it is about, unless that is zero already (`count?_dropOne`). To
destroy something takes a count of one and leaves none, so that nothing is destroyed twice: a
cascade is a teardown (`Cascade.teardown`). A step looks at nothing but the target of its reference,
and what it frees was owned there; so a cascade does not leave what can be reached over owned
references (`Cascade.reaches`), and all the rest stays as it is.
-/

namespace CountedLisp

open Run

namespace Heap

/-- References are given up in order, each of them followed at once by those that were owned by what
it destroys. The references that are given up on the way and what is destroyed are recorded in
order. -/
inductive Cascade : Heap → List Handle → List Handle → List Handle → Heap → Prop where
  /-- Nothing is left to be given up. -/
  | done (h : Heap) : Cascade h [] [] [] h
  /-- A reference is given up without anything being destroyed. -/
  | less {h h' : Heap} {x : Handle} {rest given fallen : List Handle}
    (hx : (h.dropOne x).demise = none) (hc : Cascade (h.dropOne x).heap rest given fallen h') :
    Cascade h (x :: rest) (x :: given) fallen h'
  /-- The last reference to something is given up. -/
  | last {h h' : Heap} {x : Handle} {rest given fallen : List Handle}
    (hx : (h.dropOne x).demise ≠ none)
    (hc : Cascade (h.dropOne x).heap ((h.dropOne x).freed ++ rest) given fallen h') :
    Cascade h (x :: rest) (x :: given) (x :: fallen) h'

/-- From the first one the second is reached over owned references. -/
def Reaches (h : Heap) : Handle → Handle → Prop :=
  Relation.ReflTransGen fun x y => y ∈ h.ownedBy x

/-! ### All steps -/

/-- **Giving up references comes to an end.** -/
theorem exists_cascade (h : Heap) (died : Array Demise) (work : List Handle) :
    ∃ given fallen, h.Cascade work given fallen (h.drop died work).1 := by
  fun_induction Heap.drop h died work with
  | case1 h => exact ⟨[], [], .done h⟩
  | case2 h died x rest step ih =>
    obtain ⟨given, fallen, hc⟩ := ih
    by_cases hx : (h.dropOne x).demise = none
    · have hfreed : step.freed = [] := (dropOne_of_demise_eq_none hx).1
      rw [hfreed] at hc ⊢
      exact ⟨_, _, .less hx hc⟩
    · exact ⟨_, _, .last hx hc⟩

namespace Cascade

variable {h h' : Heap} {work given fallen : List Handle}

/-- Every step uses up a reference of those to be given up and those that are owned. -/
theorem length_given (hc : h.Cascade work given fallen h') :
    given.length + h'.ownedCount = work.length + h.ownedCount := by
  induction hc with
  | done h => rfl
  | @less h h' x rest given fallen hx hc ih =>
    have hfreed := freed_dropOne h x
    rw [(dropOne_of_demise_eq_none hx).1] at hfreed
    simp only [List.length_cons, List.length_nil] at hfreed ⊢
    omega
  | @last h h' x rest given fallen hx hc ih =>
    have hfreed := freed_dropOne h x
    simp only [List.length_cons, List.length_append] at ih ⊢
    omega

/-- Every count is less by the number of references that were given up, or zero. -/
theorem count?_eq (hc : h.Cascade work given fallen h') (y : Handle) :
    h'.count? y = (h.count? y).map (· - given.count y) := by
  -- one step, and then the rest
  have hstep {h : Heap} {x : Handle} {given : List Handle} :
      ((h.dropOne x).heap.count? y).map (· - given.count y) =
        (h.count? y).map (· - (x :: given).count y) := by
    rw [count?_dropOne, List.count_cons]
    cases h.count? y with
    | none => split_ifs <;> rfl
    | some n =>
      by_cases hxy : x = y
      · simp [hxy, Nat.sub_sub, Nat.add_comm]
      · simp [hxy]
  induction hc with
  | done h => simp
  | less hx hc ih => rw [ih, hstep]
  | last hx hc ih => rw [ih, hstep]

theorem teardown (hc : h.Cascade work given fallen h') : h.Teardown work given fallen h' := by
  induction hc with
  | done h => exact .done h
  | less hx _ ih => exact .less (lessens_dropOne hx) ih
  | last hx _ ih =>
    rw [(dropOne_of_demise_ne_none hx).2.1] at ih
    exact .last (destroys_dropOne hx) ih

/-- What is given up can be reached from what was to be given up. -/
theorem reaches (hc : h.Cascade work given fallen h') {y : Handle} (hy : y ∈ given) :
    ∃ x ∈ work, h.Reaches x y := by
  -- a way after a step was there before
  have hstep {h : Heap} {x z : Handle} (hr : (h.dropOne x).heap.Reaches z y) : h.Reaches z y :=
    Relation.ReflTransGen.mono (fun a _ hb => ownedBy_dropOne_subset h x a hb) _ _ hr
  induction hc with
  | done h => cases hy
  | @less h h' x rest given fallen hx hc ih =>
    rcases List.mem_cons.mp hy with rfl | hy
    · exact ⟨y, List.mem_cons_self, .refl⟩
    · obtain ⟨z, hz, hr⟩ := ih hy
      exact ⟨z, List.mem_cons_of_mem _ hz, hstep hr⟩
  | @last h h' x rest given fallen hx hc ih =>
    rcases List.mem_cons.mp hy with rfl | hy
    · exact ⟨y, List.mem_cons_self, .refl⟩
    · obtain ⟨z, hz, hr⟩ := ih hy
      rw [(dropOne_of_demise_ne_none hx).2.1] at hz
      -- it was owned by what is destroyed here, or was to be given up anyway
      rcases List.mem_append.mp hz with hz | hz
      · exact ⟨x, List.mem_cons_self, .head hz (hstep hr)⟩
      · exact ⟨z, List.mem_cons_of_mem _ hz, hstep hr⟩

/-- What no reference is given up to stays as it is. -/
theorem sameAt (hc : h.Cascade work given fallen h') {y : Handle} (hy : y ∉ given) :
    h.SameAt h' y := by
  induction hc with
  | done h => exact .refl h y
  | less hx hc ih =>
    obtain ⟨hne, hy⟩ := not_or.mp (mt List.mem_cons.mpr hy)
    exact (sameAt_dropOne _ (Ne.symm hne)).trans (ih hy)
  | last hx hc ih =>
    obtain ⟨hne, hy⟩ := not_or.mp (mt List.mem_cons.mpr hy)
    exact (sameAt_dropOne _ (Ne.symm hne)).trans (ih hy)

end Cascade

/-! ### What is gone -/

theorem Spent.gone {h : Heap} (hp : h.Spent) {x : Handle} (hx : h.Dead x) : h.Gone x := by
  cases x with
  | object id =>
    obtain ⟨o, ho, hd⟩ := hx
    exact ⟨o, ho, hd, hp.object ho hd⟩
  | scope id =>
    obtain ⟨s, hs, hd⟩ := hx
    exact ⟨s, hs, hd, hp.scope hs hd⟩

namespace Gone

variable {p : Prop} {h h' : Heap} {x : Handle}

/-- An object is changed, but not that it is gone. -/
theorem setObject (hx : h.Gone x) {id : ObjectId} {o o' : Object} (ho : h.object? id = some o)
    (hd : o.dead = true → o'.dead = true ∧ o'.refs = o.refs) : (h.setObject id o').Gone x := by
  cases x with
  | scope _ => exact hx
  | object id' =>
    obtain ⟨y, hy, hdead, hrefs⟩ := hx
    rcases object?_setObject_of o' ho hy with ⟨-, rfl, ho'⟩ | ⟨-, hy'⟩
    · exact ⟨o', ho', (hd hdead).1, (hd hdead).2.trans hrefs⟩
    · exact ⟨y, hy', hdead, hrefs⟩

/-- A scope is changed, but not that it is gone. -/
theorem setScope (hx : h.Gone x) {id : ScopeId} {s s' : Scope} (hs : h.scope? id = some s)
    (hd : s.dead = true → s'.dead = true ∧ s'.refs = s.refs) : (h.setScope id s').Gone x := by
  cases x with
  | object _ => exact hx
  | scope id' =>
    obtain ⟨y, hy, hdead, hrefs⟩ := hx
    rcases scope?_setScope_of s' hs hy with ⟨-, rfl, hs'⟩ | ⟨-, hy'⟩
    · exact ⟨s', hs', (hd hdead).1, (hd hdead).2.trans hrefs⟩
    · exact ⟨y, hy', hdead, hrefs⟩

theorem addObject (hx : h.Gone x) (q : Payload) : (h.addObject q).2.Gone x := by
  refine hx.of_sameAt ?_
  cases x with
  | scope _ => rfl
  | object id =>
    obtain ⟨o, ho, -⟩ := hx
    exact object?_addObject_old q (lt_size_of_object? ho)

theorem addScope (hx : h.Gone x) (s : Scope) : (h.addScope s).2.Gone x := by
  refine hx.of_sameAt ?_
  cases x with
  | object _ => rfl
  | scope id =>
    obtain ⟨s', hs', -⟩ := hx
    exact scope?_addScope_old s (lt_size_of_scope? hs')

theorem updateRegistry (hx : h.Gone x) (r : Option RegistryId) (f : Registry → Registry) :
    (h.updateRegistry r f).Gone x :=
  hx.of_sameAt (sameAt_updateRegistry h r f x)

/-- **No change brings back what is gone.** -/
theorem move (hx : h.Gone x) (hm : h.Move p h') : h'.Gone x := by
  cases hm with
  | drop y => exact hx.dropOne y
  | destroy hs =>
    unfold destroyScope
    split_ifs with hd
    · exact hx
    · exact (hx.setScope hs fun hd' => absurd hd' hd).updateRegistry _ _
  | addObject q => exact hx.addObject q
  | retainObject ho hd => exact hx.setObject ho fun hd' => by rw [hd] at hd'; cases hd'
  | setPayload ho => exact hx.setObject ho fun hd => ⟨hd, rfl⟩
  | retainScope hs hd => exact hx.setScope hs fun hd' => by rw [hd] at hd'; cases hd'
  | setBindings hs => exact hx.setScope hs fun hd => ⟨hd, rfl⟩
  | tick => exact hx.of_sameAt (by cases x <;> rfl)
  | enter name =>
    have htick : { h with serial := h.serial + 1 }.Gone x := hx.of_sameAt (by cases x <;> rfl)
    exact (htick.addScope _).updateRegistry _ _
  | globals =>
    have hadd := hx.addScope (Workspace.globalScope (h.serial + 1) ⟨h.registries.size⟩)
    exact hadd.of_sameAt (by cases x <;> rfl)

theorem moves (hx : h.Gone x) (hm : h.Moves p h') : h'.Gone x :=
  hm.keep move hx

end Gone

end Heap

/-! ### Releasing -/

namespace World

/-- **Giving up one reference** to an object or a scope, on any heap whatsoever, ends after no more
steps than there are references. Nothing is destroyed twice, and what is destroyed has no count
left. Every count is less by the number of references to it that were given up, or zero. What cannot
be reached over owned references stays as it is.

What is gone never comes back, whatever is done; and after whatever has been done, what is dead is
gone. -/
theorem release_local {w : World} (hw : w.reclaim = true) (x : Handle) :
    (∃ given fallen : List Handle,
      w.heap.Cascade [x] given fallen (w.releaseHandle x).heap ∧
      given.length ≤ 1 + w.heap.ownedCount ∧
      fallen.Nodup ∧
      (∀ y ∈ fallen, (w.releaseHandle x).heap.Gone y) ∧
      (∀ y, w.heap.Lives y → (w.releaseHandle x).heap.Dead y → y ∈ fallen) ∧
      (∀ y, (w.releaseHandle x).heap.count? y = (w.heap.count? y).map (· - given.count y)) ∧
      ∀ y, ¬ w.heap.Reaches x y → w.heap.SameAt (w.releaseHandle x).heap y) ∧
    ∀ engine, Client.Lawless engine → ∀ (v : World) (deeds : List Client.Deed) (y : Handle),
      (v.heap.Gone y → (Client.afterDeeds engine v deeds).heap.Gone y) ∧
      (v.Fresh → (Client.afterDeeds engine v deeds).heap.Dead y →
        (Client.afterDeeds engine v deeds).heap.Gone y) := by
  refine ⟨?_, fun engine he v deeds y => ⟨fun hy => ?_, fun hv hy => ?_⟩⟩
  · obtain ⟨given, fallen, hc⟩ := w.heap.exists_cascade #[] [x]
    rw [← heap_drop hw, ← releaseHandle_eq_drop] at hc
    have hlength := hc.length_given
    refine ⟨given, fallen, hc, ?_, hc.teardown.nodup, fun y hy => hc.teardown.gone hy,
      fun y hy hdead => (hc.teardown.mem_fallen hy).mpr hdead, hc.count?_eq,
      fun y hy => hc.sameAt ?_⟩
    · rw [List.length_singleton] at hlength
      omega
    · intro hmem
      obtain ⟨x', hx', hreach⟩ := hc.reaches hmem
      obtain rfl := List.mem_singleton.mp hx'
      exact hy hreach
  · exact hy.moves (Client.moves_afterDeeds he.moves v deeds).heap
  · exact (Client.spent_afterDeeds he hv deeds).gone hy

/-- A pair, the thunk on its left and the scope of this thunk, in which the pair is bound, own each
other in a circle. A constant is owned twice although its count is one, and another pair owns the
first one. -/
def cyclicHeap : Heap :=
  { Heap.initial with
    objects := Heap.initial.objects ++ [
      Object.new (.pair (some ⟨2⟩) (some ⟨3⟩)),
      Object.new (.thunk ⟨.sequence [], .pending (some ⟨0⟩)⟩),
      Object.new (.constant (.boolean true)),
      Object.new (.pair (some ⟨1⟩) Heap.emptyList)]
    scopes := #[{
      name := "", serial := 0, parent := none, bindings := [("pair", some ⟨1⟩), ("item", some ⟨3⟩)],
      refs := 1, dead := false, registry := none }] }

/-- What can be reached from the pair. -/
def cyclicHandles : List Handle :=
  [.object ⟨1⟩, .object ⟨2⟩, .scope ⟨0⟩, .object ⟨3⟩]

theorem mem_cyclicHandles_of_reaches {y : Handle} (h : cyclicHeap.Reaches (.object ⟨1⟩) y) :
    y ∈ cyclicHandles := by
  have hclosed : ∀ a ∈ cyclicHandles, ∀ b ∈ cyclicHeap.ownedBy a, b ∈ cyclicHandles := by
    decide +kernel
  induction h with
  | refl => decide
  | tail _ hstep ih => exact hclosed _ ih _ hstep

/-- All that can be reached is destroyed, and the other pair stays as it is. -/
theorem release_local_cyclicHeap : ∃ (w : World) (given fallen : List Handle),
    World.releaseHandle (.object ⟨1⟩) { heap := cyclicHeap } = w ∧
    cyclicHeap.Cascade [.object ⟨1⟩] given fallen w.heap ∧
    given.length ≤ 1 + cyclicHeap.ownedCount ∧ fallen.Nodup ∧
    (∀ y ∈ cyclicHandles, y ∈ fallen ∧ w.heap.Gone y) ∧
    w.heap.count? (.object ⟨3⟩) = some (1 - given.count (.object ⟨3⟩)) ∧
    cyclicHeap.SameAt w.heap (.object ⟨4⟩) ∧
    (Client.afterDeeds (.ofDepth 0) w
      [.call (.retain (some ⟨1⟩)), .call (.force (some ⟨2⟩))]).heap.Gone (.object ⟨1⟩) ∧
    (Client.afterDeeds (.ofDepth 0) {}
      [.call .unspecified, .call (.release (some ⟨1⟩))]).heap.Gone (.object ⟨1⟩) := by
  obtain ⟨⟨given, fallen, hc, hlength, hnodup, hgone, hfallen, hcount, hsame⟩, hever⟩ :=
    release_local (w := { heap := cyclicHeap }) rfl (.object ⟨1⟩)
  have hlives : ∀ y ∈ cyclicHandles, cyclicHeap.Lives y := by decide +kernel
  have hdead : ∀ y ∈ cyclicHandles,
      (World.releaseHandle (.object ⟨1⟩) { heap := cyclicHeap }).heap.Dead y := by decide +kernel
  have hall : ∀ y ∈ cyclicHandles, y ∈ fallen ∧
      (World.releaseHandle (.object ⟨1⟩) { heap := cyclicHeap }).heap.Gone y := by
    intro y hy
    have hmem := hfallen y (hlives y hy) (hdead y hy)
    exact ⟨hmem, hgone y hmem⟩
  refine ⟨_, given, fallen, rfl, hc, hlength, hnodup, hall, hcount _, hsame _ fun hr => ?_, ?_, ?_⟩
  · exact absurd (mem_cyclicHandles_of_reaches hr) (by decide)
  · exact (hever _ (.program 0) _ _ _).1 (hall _ (by decide)).2
  · exact (hever _ (.program 0) _ _ _).2 ⟨rfl, rfl, rfl, rfl⟩ (by decide +kernel)

end World

end CountedLisp
